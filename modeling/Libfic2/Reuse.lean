import Libfic2.Overlap
import Libfic2.Window

/-!
# Freed space can be used again

While every allocation fits, a block stays free between any two areas.  The search for the size
that an area had then comes to a candidate at or before that area, and stops in front of the
next one.

* `reuse_iff`: along such calls, an area can be freed and allocated again, unless the address
  that `mmap` answers is taken for a failure
* `reuse_fails`: after an allocation that does not fit, the space of a live area is lost when
  the area is freed
-/

namespace Libfic2.Mmalloc

open Driver Linked

variable {m : DataModel}

/-- `y` begins a block behind `x`, or later. -/
def Ent.Guarded (x y : Ent m) : Prop := x.pAddr + x.pSize + mmallocBlockSize ≤ y.pAddr

/-- An area on block boundaries that has passed the test against the end of the window. -/
structure Ent.Placed (e : Ent m) (info : MmallocInfo) : Prop where
  inOff : e.InOff
  addr : (mmallocBlockSize : Int) ∣ e.pAddr
  size : (mmallocBlockSize : Int) ∣ e.pSize
  room : exceeds m info e.pAddr e.pSize = false

/-- What an allocation that fits keeps. -/
structure Tight (info : MmallocInfo) (asked : Ref → Nat) (l : List (Ref × Ent m)) : Prop where
  guarded : l.Pairwise fun a b => a.2.Guarded b.2
  placed : ∀ a ∈ l, a.2.Placed info
  size : ∀ a ∈ l, ∀ s : Ptr m, asked a.1 = s.toNat → a.2.pSize = blockBytes s
  unshared : Unshared l

/-! ## The list -/

section
variable {info : MmallocInfo} {asked : Ref → Nat} {l l₁ l₂ : List (Ref × Ent m)}
    {a : Ref × Ent m} {fo : Int}

theorem Ent.Guarded.before {x y : Ent m} (h : x.Guarded y) : x.Before y := by
  unfold Ent.Guarded mmallocBlockSize at h
  constructor <;> omega

/-- Without `a`, the search for its size stops at or before it. -/
theorem place_back (hguarded : (l₁ ++ a :: l₂).Pairwise fun a b => a.2.Guarded b.2)
    (hin : ∀ x ∈ l₁ ++ a :: l₂, x.2.InOff) (h0 : 0 ≤ fo) (hfo : fo ≤ a.2.pAddr) :
    0 ≤ (place a.2.pSize (l₁ ++ l₂) fo).2.2 ∧ (place a.2.pSize (l₁ ++ l₂) fo).2.2 ≤ a.2.pAddr := by
  have hain : a.2.InOff := hin a (by simp)
  have hastart := hain.1
  have haend := hain.2
  induction l₁ generalizing fo with
  | nil =>
    cases l₂ with
    | nil => exact ⟨h0, hfo⟩
    | cons y l₂ =>
      have hnext : a.2.Guarded y.2 := (List.pairwise_cons.1 hguarded).1 y List.mem_cons_self
      unfold Ent.Guarded mmallocBlockSize at hnext
      have hroom : offT (fo + a.2.pSize) < y.2.pAddr := by
        rw [offT_eq (by omega) (by omega)]
        omega
      rw [List.nil_append, place, if_neg (by omega), if_pos hroom]
      exact ⟨h0, hfo⟩
  | cons x l₁ ih =>
    obtain ⟨hx, hrest⟩ := List.pairwise_cons.1 hguarded
    have hnext : x.2.Guarded a.2 := hx a (by simp)
    have hxin : x.2.InOff := hin x (by simp)
    have hxstart := hxin.1
    have ih : ∀ {fo : Int}, 0 ≤ fo → fo ≤ a.2.pAddr → _ :=
      fun {_} => ih hrest fun y hy => hin y (List.mem_cons_of_mem _ hy)
    unfold Ent.Guarded mmallocBlockSize at hnext
    rw [List.cons_append, place]
    split
    · rw [offT_next hxin (by unfold mmallocBlockSize; omega)]
      unfold mmallocBlockSize
      exact ih (by omega) hnext
    · split
      · exact ⟨h0, hfo⟩
      · exact ih h0 hfo

/-- An earlier area of the same size passes the test, too. -/
theorem exceeds_mono {fo fo' fs : Int} (h : exceeds m info fo' fs = false)
    (h0 : 0 ≤ fo + fs) (hle : fo ≤ fo') (hhigh : fo' + fs < 2 ^ 63) : exceeds m info fo fs = false := by
  unfold exceeds at h ⊢
  cases m with
  | ilp32 =>
    have htest : offT (fo' + fs) ≤ offT (info.offset + info.areaSize) := by simpa using h
    rw [offT_eq (by omega) hhigh] at htest
    simp only [decide_eq_false_iff_not]
    rw [offT_eq (by omega) (by omega)]
    omega
  | lp64 =>
    have htest : (fo' + fs) % 2 ^ 64 ≤ (info.offset + info.areaSize) % 2 ^ 64 := by simpa using h
    simp only [decide_eq_false_iff_not]
    omega

end

/-! ## Every state reached -/

section
variable {info : MmallocInfo} {asked : Ref → Nat} {l : List (Ref × Ent m)} {x : Session m}

/-- The size is noted for the new cell only. -/
theorem notes_of_mem (hm : Models x.st l) {c : Call m} (hok : c.Allowed x.st)
    {a : Ref × Ent m} (ha : a ∈ l) : c.notes asked a.1 = asked a.1 := by
  cases c with
  | mfree ptr => rfl
  | mmalloc size ans =>
    obtain ⟨s, _, hd⟩ := hm
    have hmem : a.1 ∈ x.st.heap := hd.mem (List.mem_cons_of_mem _ (List.mem_map_of_mem ha))
    obtain ⟨malloc, mmap⟩ := ans
    cases malloc with
    | none => rfl
    | some z =>
      apply if_neg
      rintro heq
      exact hok.fresh z rfl (heq ▸ hmem)

theorem Tight.mmalloc (h : Tight x.st.info asked l) (hm : Models x.st l) {size : Ptr m} {ans : Answers m}
    (hok : ans.Allowed x.st size) (hharm : Harmless x.st (.mmalloc size ans)) :
    Tight x.st.info (Call.notes asked (.mmalloc size ans)) (allocate x.st.info l size ans) := by
  have hunshared : Unshared (allocate x.st.info l size ans) :=
    h.unshared.allocate fun halloc => hok.apart l hm.live halloc.mapsArea.2.2
  have hold : ∀ a ∈ l, Call.notes asked (.mmalloc size ans) a.1 = asked a.1 :=
    fun a ha => notes_of_mem hm (c := .mmalloc size ans) hok ha
  by_cases halloc : Allocates x.st.info l size ans
  · have hin : ∀ a ∈ l, a.2.InOff := fun a ha => (h.placed a ha).inOff
    obtain ⟨r, junk, pre, suf, hr, hland⟩ :=
      allocate_lands (h.guarded.imp Ent.Guarded.before) hin halloc (hharm l hm.live halloc)
    have hdvd : (mmallocBlockSize : Int) ∣ (place (blockBytes size) l 0).2.2 := by
      apply place_candidate (P := fun fo => (mmallocBlockSize : Int) ∣ fo) (Int.dvd_zero _)
      intro a ha
      exact dvd_offT (Int.dvd_add (dvd_offT (Int.dvd_add (h.placed a ha).addr (h.placed a ha).size))
        (Int.dvd_refl _))
    have hsize : (mmallocBlockSize : Int) ∣ blockBytes size := by exact_mod_cast dvd_blockBytes size
    have hex := halloc.2.1
    have hhigh := hland.high
    rw [freeSize_eq (by have := hland.low; omega)] at hex
    generalize (place (blockBytes size) l 0).2.2 = fo at *
    refine ⟨hland.pairwise h.guarded ?_ ?_, ?_, ?_, hunshared⟩
    -- on block boundaries, what is not adjacent is a whole block away
    · intro a ha hbehind
      have haddr := (h.placed a ha).addr
      have hasize := (h.placed a ha).size
      show a.2.pAddr + a.2.pSize + mmallocBlockSize ≤ fo
      unfold mmallocBlockSize at *
      omega
    · intro a ha hbefore
      have haddr := (h.placed a ha).addr
      show fo + blockBytes size + mmallocBlockSize ≤ a.2.pAddr
      unfold mmallocBlockSize at *
      omega
    · intro a ha
      rcases hland.mem ha with ha | rfl
      · exact h.placed a ha
      · exact ⟨⟨hland.low, hland.high⟩, hdvd, hsize, hex⟩
    · intro a ha s hs
      rcases hland.mem ha with ha | rfl
      · exact h.size a ha s (hold a ha ▸ hs)
      · have hasked : Call.notes asked (.mmalloc size ans) r = size.toNat := by simp [Call.notes, hr]
        rw [BitVec.eq_of_toNat_eq (hasked.symm.trans hs)]
  · rw [allocate_none halloc]
    exact ⟨h.guarded, h.placed, fun a ha s hs => h.size a ha s (hold a ha ▸ hs), h.unshared⟩

theorem Tight.after (h : Tight x.st.info asked l) (hm : Models x.st l) {c : Call m} (hok : c.Allowed x.st)
    (hharm : Harmless x.st c) : Tight x.st.info (c.notes asked) (c.after x.st.info l) := by
  cases c with
  | mmalloc size ans => exact h.mmalloc hm hok hharm
  | mfree ptr =>
    have hsub : (release l ptr).Sublist l := List.eraseP_sublist
    exact ⟨h.guarded.sublist hsub, fun a ha => h.placed a (hsub.subset ha),
      fun a ha => h.size a (hsub.subset ha), h.unshared.release ptr⟩

/-- Without the area `a`, the area found for its size passes the test against the end of the window. -/
theorem Tight.room (h : Tight info asked l) {a : Ref × Ent m} (ha : a ∈ l) {s : Ptr m}
    (hs : asked a.1 = s.toNat) :
    exceeds m info (place (freeSize s) (release l a.2.ptr) 0).2.2 (freeSize s) = false := by
  have hsize := h.size a ha s hs
  obtain ⟨hastart, haend⟩ := (h.placed a ha).inOff
  have hroom := (h.placed a ha).room
  have hout : ∃ l₁ l₂, l = l₁ ++ a :: l₂ ∧ release l a.2.ptr = l₁ ++ l₂ := by
    obtain ⟨_, l₁, l₂, rfl, hbefore⟩ := List.find?_eq_some_iff_append.1 (h.unshared.find ha)
    refine ⟨l₁, l₂, rfl, ?_⟩
    unfold release
    rw [List.eraseP_append_right _ (by simpa using hbefore), List.eraseP_cons_of_pos (by simp)]
  obtain ⟨l₁, l₂, rfl, hrel⟩ := hout
  rw [hrel, freeSize_eq (by omega), ← hsize]
  obtain ⟨hlow, hhigh⟩ := place_back h.guarded (fun x hx => (h.placed x hx).inOff) (Int.le_refl 0) hastart
  exact exceeds_mono hroom (by omega) hhigh haend

end

/-- While every allocation fits, each live area can be freed and an area of its size allocated again,
with `malloc` and `mmap` successful, if and only if the address that `mmap` answers is positive as an
`int`. -/
theorem reuse_iff {fd offset : Int} {size : Nat} {malloc : Option (Ref × Cell (Ent m))} {st : State m}
    (hinit : mmallocInit (State.start m) fd offset size malloc = some (0, st)) {x : Session m}
    (hx : Reached Harmless ⟨st, fun _ => 0⟩ x) {l : List (Ref × Ent m)} (hl : x.st.live = some l)
    {a : Ref × Ent m} (ha : a ∈ l) {s : Ptr m} (hs : x.asked a.1 = s.toNat) :
    ∃ st₁, mfree x.st a.2.ptr = some st₁ ∧ ∀ ans : Answers m, (∀ c ∈ ans.malloc, c.1 ∉ st₁.heap) →
      ans.malloc ≠ none → ans.mmap ≠ mapFailed m →
        ∃ p st₂, mmalloc st₁ s ans = some (p, st₂) ∧ (p ≠ 0 ↔ 0 ≤ cInt ans.mmap.toNat ∧ ans.mmap ≠ 0) := by
  obtain ⟨l', hmodels, hinfo, htight⟩ := reached_models (P := Tight st.info) (models_init hinit).1 hx
    ⟨.nil, by simp, by simp, List.nodup_nil⟩ fun y l c hm hinfo hl hok hharm =>
    hinfo ▸ (hinfo ▸ hl : Tight y.st.info _ l).after hm hok hharm
  obtain rfl : l' = l := Option.some.inj (hmodels.live.symm.trans hl)
  obtain ⟨st₁, hrun₁, hinfo₁, _, hmodels₁⟩ := hmodels.mfree a.2.ptr
  refine ⟨st₁, hrun₁, fun ans hfresh hmalloc _ => ?_⟩
  obtain ⟨st₂, hrun₂, _, _, _⟩ := hmodels₁.mmalloc s hfresh
  have hroom := htight.room ha hs
  rw [← hinfo, ← hinfo₁] at hroom
  refine ⟨_, st₂, hrun₂, ?_⟩
  unfold answer Allocates
  by_cases hneg : cInt ans.mmap.toNat < 0
  · simp [hneg]
  · simp [hroom, hneg, Int.not_lt.1 hneg, Option.isSome_iff_ne_none.2 hmalloc]

/-- Of the three areas after `threeAreas` the second is freed, and allocated again. -/
theorem reuse_second : ∃ x : Session .lp64, Reached Harmless ⟨oneMiB, fun _ => 0⟩ x ∧
    x.st.live.map List.length = some 3 ∧ ∃ st₁, mfree x.st 0x2000 = some st₁ ∧
      ∃ p st₂, mmalloc st₁ 5000 ⟨some (6, junkCell), 0x10000⟩ = some (p, st₂) ∧ p ≠ 0 := by
  obtain ⟨x, hx, hlive, l, hl, a, ha, hptr, hasked, hfresh⟩ :
      ∃ x ∈ replay Session.next (fun x c => c.Allowed x.st ∧ Harmless x.st c)
      threeAreas ⟨oneMiB, fun _ => 0⟩,
        x.st.live.map List.length = some 3 ∧ ∃ l ∈ x.st.live, ∃ a ∈ l,
        a.2.ptr = 0x2000 ∧ x.asked a.1 = (5000 : Ptr .lp64).toNat ∧
        ∀ st₁ ∈ mfree x.st 0x2000, 6 ∉ st₁.heap := by
    decide +kernel
  have hinit : mmallocInit (State.start .lp64) 3 0 (1024 * 1024) (some (1, junkCell)) =
      some (0, oneMiB) := rfl
  have hreach : Reached Harmless ⟨oneMiB, fun _ => 0⟩ x := replay_reaches hx
  obtain ⟨st₁, hrun₁, hagain⟩ := reuse_iff hinit hreach hl ha hasked
  rw [hptr] at hrun₁
  have hfree : ∀ c ∈ some (6, junkCell (m := .lp64)), c.1 ∉ st₁.heap := by simpa using hfresh st₁ hrun₁
  obtain ⟨p, st₂, hrun₂, hp⟩ := hagain ⟨some (6, junkCell), 0x10000⟩ hfree (by simp) (by decide)
  exact ⟨x, hreach, hlive, st₁, hrun₁, p, st₂, hrun₂, hp.2 (by decide)⟩

/-- A window of three blocks. -/
def threeBlocks : State .lp64 := ⟨⟨3, 0, 3 * 4096, some 1⟩, AList.insert 1 junkCell ∅, []⟩

/-- Two areas with a block between them; the first is freed, and two blocks are mapped over the second. -/
def reuseCalls : List (Call .lp64) :=
  [.mmalloc 1 ⟨some (2, junkCell), 0x1000⟩, .mmalloc 1 ⟨some (3, junkCell), 0x2000⟩, .mfree 0x1000,
    .mmalloc 4096 ⟨some (4, junkCell), 0x3000⟩]

/-- Then the one block of the second area cannot be freed and allocated again. -/
theorem reuse_fails :
    mmallocInit (State.start .lp64) 3 0 (3 * 4096) (some (1, junkCell)) = some (0, threeBlocks) ∧
      ∃ x, Reached (fun _ _ => True) ⟨threeBlocks, fun _ => 0⟩ x ∧
        ∃ l ∈ x.st.live, ∃ a ∈ l, x.asked a.1 = (1 : Ptr .lp64).toNat ∧
        ∃ st₁ ∈ mfree x.st a.2.ptr, 5 ∉ st₁.heap ∧
          ∃ r ∈ mmalloc st₁ 1 ⟨some (5, junkCell), 0x4000⟩, r.1 = 0 := by
  have hrun : ∃ x ∈ replay Session.next (fun x c => c.Allowed x.st ∧ True) reuseCalls
      ⟨threeBlocks, fun _ => 0⟩, ∃ l ∈ x.st.live, ∃ a ∈ l, x.asked a.1 = (1 : Ptr .lp64).toNat ∧
        ∃ st₁ ∈ mfree x.st a.2.ptr, 5 ∉ st₁.heap ∧
        ∃ r ∈ mmalloc st₁ 1 ⟨some (5, junkCell), 0x4000⟩, r.1 = 0 := by
    decide +kernel
  obtain ⟨x, hx, hbad⟩ := hrun
  exact ⟨rfl, x, replay_reaches hx, hbad⟩

end Libfic2.Mmalloc
