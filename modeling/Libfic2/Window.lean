import Libfic2.FirstFit

/-!
# When the areas lie in the window

The search of `mmalloc` starts from 0, not from `info.offset`, so that the first area of a window
that begins later lies in front of it.  Behind an entry the search goes on at the next block but
one, so that every area begins on a block boundary; the end of the window is tested.

* `inWindow_iff`: while every entry is added to a window that begins at 0 at the latest, all of them
  lie in it, on block boundaries, and a call keeps this just when it is such a one
* `mmalloc_before_window`: an area in front of the window
-/

namespace Libfic2.Mmalloc

open Driver Linked

variable {m : DataModel}

/-! ## The property, and the condition -/

/-- The area lies in the window, on block boundaries. -/
structure Ent.InWindow (e : Ent m) (info : MmallocInfo) : Prop where
  low : info.offset ≤ e.pAddr
  high : e.pAddr + e.pSize ≤ info.offset + info.areaSize
  addr : (mmallocBlockSize : Int) ∣ e.pAddr
  size : mmallocBlockSize ∣ e.pSize
  pos : 0 < e.pSize

def State.InWindow (st : State m) : Prop := ∃ l ∈ st.live, ∀ a ∈ l, a.2.InWindow st.info

/-- `mmap` fails for an area that does not lie within `off_t`. -/
def Mappable (st : State m) : Call m → Prop
  | .mmalloc size ans =>
    ans.mmap ≠ mapFailed m → ∀ fo ∈ st.chosen size, 0 ≤ fo ∧ fo + blockBytes size < 2 ^ 63
  | .mfree _ => True

instance (st : State m) : (c : Call m) → Decidable (Mappable st c)
  | .mmalloc size ans =>
    inferInstanceAs (Decidable (ans.mmap ≠ mapFailed m → ∀ fo ∈ st.chosen size, 0 ≤ fo ∧
      fo + blockBytes size < 2 ^ 63))
  | .mfree _ => inferInstanceAs (Decidable True)

/-- An entry is added only to a window that begins at 0 at the latest, and ends behind it. -/
def Windowed (st : State m) : Call m → Prop
  | .mmalloc size ans =>
    ∀ l ∈ st.live, Allocates st.info l size ans → st.info.offset ≤ 0 ∧ 0 ≤ st.info.offset + st.info.areaSize
  | .mfree _ => True

instance (st : State m) : (c : Call m) → Decidable (Windowed st c)
  | .mmalloc size ans => inferInstanceAs (Decidable (∀ l ∈ st.live, Allocates st.info l size ans →
      st.info.offset ≤ 0 ∧ 0 ≤ st.info.offset + st.info.areaSize))
  | .mfree _ => inferInstanceAs (Decidable True)

/-! ## One entry -/

theorem dvd_offT {x : Int} (h : (mmallocBlockSize : Int) ∣ x) : (mmallocBlockSize : Int) ∣ offT x := by
  have hmod := offT_emod x
  unfold mmallocBlockSize at h ⊢
  omega

theorem dvd_blockBytes (size : Ptr m) : mmallocBlockSize ∣ blockBytes size := by
  have hbits : mmallocBlockSize ∣ 2 ^ m.sizeBits := by cases m <;> decide
  exact (Nat.dvd_mod_iff hbits).2 (Nat.dvd_mul_left _ _)

/-- The test against the end of the window, where nothing overflows. -/
theorem le_of_not_exceeds {info : MmallocInfo} {fo fs : Int}
    (h : exceeds m info fo fs = false) (hlow : 0 ≤ fo + fs)
    (hhigh : fo + fs < 2 ^ 63) (hw : 0 ≤ info.offset + info.areaSize) :
    fo + fs ≤ info.offset + info.areaSize := by
  unfold exceeds at h
  generalize info.offset + info.areaSize = w at *
  cases m with
  | ilp32 =>
    have htest : offT (fo + fs) ≤ offT w := by simpa using h
    have hmod := offT_emod w
    have hlt : offT w < 2 ^ 63 := Int.bmod_lt (by decide)
    rw [offT_eq (by omega) hhigh] at htest
    omega
  | lp64 =>
    have htest : (fo + fs) % 2 ^ 64 ≤ w % 2 ^ 64 := by simpa using h
    omega

/-- An entry in a window that begins at 0 at the latest. -/
structure Ent.Inside (e : Ent m) (info : MmallocInfo) : Prop extends e.InWindow info where
  start : info.offset ≤ 0
  nonneg : 0 ≤ e.pAddr

section
variable {info : MmallocInfo} {l : List (Ref × Ent m)} {size : Ptr m} {ans : Answers m}

/-- A new entry. -/
theorem inside_new (hl : ∀ a ∈ l, a.2.Inside info) (hlen : blockBytes size = 0 → ans.mmap = mapFailed m)
    (hmap : 0 ≤ (place (freeSize size) l 0).2.2 ∧
      (place (freeSize size) l 0).2.2 + blockBytes size < 2 ^ 63)
    (h : Allocates info l size ans) (hstart : info.offset ≤ 0) (hend : 0 ≤ info.offset + info.areaSize) :
    Ent.Inside ⟨ans.mmap, (place (freeSize size) l 0).2.2,
      (freeSize size % 2 ^ m.sizeBits).toNat⟩ info := by
  have hex := h.2.1
  have hdvd : (mmallocBlockSize : Int) ∣ (place (freeSize size) l 0).2.2 := by
    apply place_candidate (P := fun fo => (mmallocBlockSize : Int) ∣ fo) (Int.dvd_zero _)
    intro x hx
    have haddr := (hl x hx).addr
    have hsize : (mmallocBlockSize : Int) ∣ x.2.pSize := by exact_mod_cast (hl x hx).size
    exact dvd_offT (Int.dvd_add (dvd_offT (Int.dvd_add haddr hsize)) (Int.dvd_refl _))
  have hpos : blockBytes size ≠ 0 := fun hz => h.2.2 (hlen hz ▸ cInt_mapFailed)
  have hbytes : blockBytes size < 2 ^ 63 := by omega
  rw [pSize_eq hbytes]
  rw [freeSize_eq hbytes] at hmap hex hdvd ⊢
  have hhigh := le_of_not_exceeds hex (by omega) hmap.2 hend
  exact ⟨⟨Int.le_trans hstart hmap.1, hhigh, hdvd, dvd_blockBytes size, Nat.pos_of_ne_zero hpos⟩,
    hstart, hmap.1⟩

/-- The first entry that lies in the window shows that it begins at 0 at the latest. -/
theorem start_of_inWindow (hl : ∀ a ∈ l, a.2.Inside info) {e : Ent m} (h : e.InWindow info)
    (haddr : e.pAddr = (place (freeSize size) l 0).2.2) (hlow : 0 ≤ e.pAddr) :
    info.offset ≤ 0 ∧ 0 ≤ info.offset + info.areaSize := by
  have hhigh := h.high
  refine ⟨?_, by omega⟩
  cases l with
  | nil =>
    have hfirst := h.low
    rwa [haddr] at hfirst
  | cons x l => exact (hl x List.mem_cons_self).start

end

/-! ## Every state reached -/

section
variable {x : Session m} {l : List (Ref × Ent m)}

theorem Models.inWindow (hm : Models x.st l) : x.st.InWindow ↔ ∀ a ∈ l, a.2.InWindow x.st.info := by
  unfold State.InWindow
  rw [hm.live]
  simp

theorem Models.windowed (hm : Models x.st l) {size : Ptr m} {ans : Answers m} :
    Windowed x.st (.mmalloc size ans) ↔
      (Allocates x.st.info l size ans → x.st.info.offset ≤ 0 ∧
      0 ≤ x.st.info.offset + x.st.info.areaSize) := by
  unfold Windowed
  rw [hm.live]
  simp

/-- What the two conditions on a call give for the list. -/
theorem inside_after (hm : Models x.st l) (hl : ∀ a ∈ l, a.2.Inside x.st.info)
    {c : Call m} (hok : c.Allowed x.st)
    (hmap : Mappable x.st c) (hwin : Windowed x.st c) :
    ∀ a ∈ c.after x.st.info l, a.2.Inside x.st.info := by
  cases c with
  | mmalloc size ans =>
    apply forall_allocate (P := fun e => e.Inside x.st.info) hl
    intro halloc
    obtain ⟨hstart, hend⟩ := hm.windowed.1 hwin halloc
    exact inside_new hl hok.length (hmap halloc.mapsArea.2.2 _ (hm.chosen size)) halloc hstart hend
  | mfree ptr => exact forall_release (P := fun e => e.Inside x.st.info) hl

/-- A call that keeps the areas in the window meets the condition. -/
theorem windowed_of_inWindow (hm : Models x.st l) (hl : ∀ a ∈ l, a.2.Inside x.st.info) {c : Call m}
    (hmap : Mappable x.st c) (hin : ∀ a ∈ c.after x.st.info l, a.2.InWindow x.st.info) :
    Windowed x.st c := by
  cases c with
  | mmalloc size ans =>
    refine hm.windowed.2 fun halloc => ?_
    obtain ⟨r, junk, _, hperm⟩ := allocate_perm halloc
    have hnew := hin _ (hperm.symm.subset List.mem_cons_self)
    exact start_of_inWindow hl hnew rfl (hmap halloc.mapsArea.2.2 _ (hm.chosen size)).1
  | mfree ptr => trivial

end

/-- Along calls that meet the condition all areas lie in the window, on block boundaries; and in a
state so reached, a call keeps this if and only if it meets the condition. -/
theorem inWindow_iff {fd offset : Int} {size : Nat} {malloc : Option (Ref × Cell (Ent m))} {st : State m}
    (hinit : mmallocInit (State.start m) fd offset size malloc = some (0, st)) {x : Session m}
    (hx : Reached (fun st c => Mappable st c ∧ Windowed st c) ⟨st, fun _ => 0⟩ x) :
    x.st.InWindow ∧ ∀ c : Call m, c.Allowed x.st → Mappable x.st c →
      ∃ y, x.next c = some y ∧ (y.st.InWindow ↔ Windowed x.st c) := by
  obtain ⟨l, hmodels, hinfo, hl⟩ := reached_models (P := fun _ l => ∀ a ∈ l, a.2.Inside st.info)
      (models_init hinit).1 hx (by simp)
    fun y l c hm hinfo hl hok hC => hinfo ▸ inside_after hm (hinfo ▸ hl) hok hC.1 hC.2
  rw [← hinfo] at hl
  refine ⟨hmodels.inWindow.2 fun a ha => (hl a ha).toInWindow, fun c hok hmap => ?_⟩
  obtain ⟨y, hrun, hinfo', _, hmodels'⟩ := hmodels.next hok
  refine ⟨y, hrun, ?_⟩
  rw [hmodels'.inWindow, hinfo']
  exact ⟨windowed_of_inWindow hmodels hl hmap,
    fun hwin a ha => (inside_after hmodels hl hok hmap hwin a ha).toInWindow⟩

/-- In a window that begins at 0. -/
theorem inWindow_three :
    ∃ x : Session .lp64, Reached (fun st c => Mappable st c ∧ Windowed st c) ⟨oneMiB, fun _ => 0⟩ x ∧
      x.st.live.map List.length = some 3 ∧ x.st.InWindow := by
  have hrun : ∃ x ∈ replay Session.next (fun x c => c.Allowed x.st ∧ Mappable x.st c ∧
      Windowed x.st c) threeAreas ⟨oneMiB, fun _ => 0⟩, x.st.live.map List.length = some 3 := by
    decide +kernel
  obtain ⟨x, hx, hlive⟩ := hrun
  have hinit : mmallocInit (State.start .lp64) 3 0 (1024 * 1024) (some (1, junkCell)) =
      some (0, oneMiB) := rfl
  have hreach : Reached (fun st c => Mappable st c ∧ Windowed st c) ⟨oneMiB, fun _ => 0⟩ x :=
    replay_reaches hx
  exact ⟨x, hreach, hlive, (inWindow_iff hinit hreach).1⟩

/-- A window that begins at the second block. -/
def secondBlock : State .lp64 := ⟨⟨3, 4096, 1024 * 1024, some 1⟩, AList.insert 1 junkCell ∅, []⟩

/-- Its first area begins at 0. -/
theorem mmalloc_before_window :
    mmallocInit (State.start .lp64) 3 4096 (1024 * 1024) (some (1, junkCell)) = some (0, secondBlock) ∧
      ∃ x, Reached Mappable ⟨secondBlock, fun _ => 0⟩ x ∧ ¬ x.st.InWindow := by
  have hrun : ∃ x ∈ replay Session.next (fun x c => c.Allowed x.st ∧ Mappable x.st c)
      [.mmalloc 100 ⟨some (2, junkCell), 0x1000⟩] ⟨secondBlock, fun _ => 0⟩,
      ∃ l ∈ x.st.live, ∃ a ∈ l, ¬ x.st.info.offset ≤ a.2.pAddr := by
    decide +kernel
  obtain ⟨x, hx, l, hl, a, ha, hlow⟩ := hrun
  refine ⟨rfl, x, replay_reaches hx, ?_⟩
  rintro ⟨l', hl', hin⟩
  obtain rfl : l' = l := Option.some.inj (hl'.symm.trans hl)
  exact hlow (hin a ha).low

end Libfic2.Mmalloc
