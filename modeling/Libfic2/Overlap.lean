import Libfic2.FirstFit

/-!
# When the live areas are disjoint

The search of `mmalloc` passes an entry that starts behind the candidate but leaves too little
room in front of it, without moving the candidate behind it.  The area then found starts before
an entry that the search has passed.  `Fits` says that this does not happen: every entry is
either before the candidate or leaves room, in exact arithmetic.

* `disjoint_of_fits`: while every allocation fits, the areas are disjoint; one that does not
  breaks this
* `mmalloc_overlaps`: four calls after which two areas overlap
-/

namespace Libfic2.Mmalloc

open Driver Linked

variable {m : DataModel}

/-! ## The search -/

/-- An area of `bytes` bytes at the candidate `fo`, or behind the entries before it, has room. -/
def Fits (bytes : Nat) : List (Ref × Ent m) → Int → Prop
  | [], fo => fo + bytes < 2 ^ 63
  | x :: l, fo =>
    if fo ≥ x.2.pAddr then
      x.2.pAddr + x.2.pSize + mmallocBlockSize < 2 ^ 63 ∧
        Fits bytes l (x.2.pAddr + x.2.pSize + mmallocBlockSize)
    else fo + bytes < x.2.pAddr

instance decidableFits (bytes : Nat) : (l : List (Ref × Ent m)) → (fo : Int) → Decidable (Fits bytes l fo)
  | [], fo => inferInstanceAs (Decidable (fo + bytes < 2 ^ 63))
  | x :: l, fo =>
    have := decidableFits bytes l (x.2.pAddr + x.2.pSize + mmallocBlockSize)
    inferInstanceAs (Decidable (if fo ≥ x.2.pAddr then _ ∧ Fits bytes l _ else _))

/-- The area is within `off_t`. -/
def Ent.InOff (x : Ent m) : Prop := 0 ≤ x.pAddr ∧ x.pAddr + x.pSize < 2 ^ 63

section
variable {l : List (Ref × Ent m)} {fo b : Int} {bytes : Nat}

/-- A candidate before every entry stays. -/
theorem place_low {fs : Int} (h : ∀ x ∈ l, fo < x.2.pAddr) : (place fs l fo).2.2 = fo := by
  induction l with
  | nil => rfl
  | cons x l ih =>
    have hx : ¬ fo ≥ x.2.pAddr := Int.not_le.2 (h x List.mem_cons_self)
    unfold place
    rw [if_neg hx]
    split
    · rfl
    · exact ih fun y hy => h y (List.mem_cons_of_mem _ hy)

theorem offT_next {x : Ent m} (hx : x.InOff) (h : x.pAddr + x.pSize + mmallocBlockSize < 2 ^ 63) :
    offT (offT (x.pAddr + x.pSize) + mmallocBlockSize) = x.pAddr + x.pSize + mmallocBlockSize := by
  obtain ⟨h0, h1⟩ := hx
  rw [offT_eq (x := x.pAddr + x.pSize) (by omega) h1]
  apply offT_eq _ h
  unfold mmallocBlockSize
  omega

/-- Where there is room, the area found lies between the entries passed and the others. -/
theorem place_fits (hl : l.Pairwise fun a b => a.2.Before b.2) (hin : ∀ x ∈ l, x.2.InOff)
    (hb : ∀ x ∈ l, b ≤ x.2.pAddr) (hbf : b < fo) (h0 : 0 ≤ fo) (hfit : Fits bytes l fo) :
    b < (place bytes l fo).2.2 ∧ 0 ≤ (place bytes l fo).2.2 ∧ (place bytes l fo).2.2 + bytes < 2 ^ 63 ∧
      (∀ x ∈ (place bytes l fo).1, x.2.pAddr + x.2.pSize < (place bytes l fo).2.2) ∧
      ∀ y ∈ (place bytes l fo).2.1, (place bytes l fo).2.2 + bytes < y.2.pAddr := by
  induction l generalizing fo b with
  | nil => exact ⟨hbf, h0, hfit, by simp [place], by simp [place]⟩
  | cons x l ih =>
    obtain ⟨hx, hl⟩ := List.pairwise_cons.1 hl
    have hxin := hin x List.mem_cons_self
    have hxb := hb x List.mem_cons_self
    have htail : ∀ y ∈ l, y.2.InOff := fun y hy => hin y (List.mem_cons_of_mem _ hy)
    unfold Fits at hfit
    unfold place
    split
    · next hpass =>
      rw [if_pos hpass] at hfit
      obtain ⟨hsmall, hfit⟩ := hfit
      rw [offT_next hxin hsmall]
      have hgap : x.2.pAddr + x.2.pSize < x.2.pAddr + x.2.pSize + (mmallocBlockSize : Int) := by
        unfold mmallocBlockSize
        omega
      obtain ⟨h1, h2, h3, h4, h5⟩ :=
        ih hl htail (fun y hy => (hx y hy).2) hgap (by have := hxin.1; omega) hfit
      refine ⟨Int.lt_of_le_of_lt (by omega) h1, h2, h3, fun y hy => ?_, h5⟩
      rcases List.mem_cons.1 hy with rfl | hy
      · exact h1
      · exact h4 y hy
    · next hpass =>
      rw [if_neg hpass] at hfit
      have hroom : offT (fo + bytes) < x.2.pAddr := by
        have := hxin.2
        rwa [offT_eq (by omega) (by omega)]
      have := hxin.2
      rw [if_pos hroom]
      refine ⟨hbf, h0, by show fo + bytes < 2 ^ 63; omega, by simp, fun y hy => ?_⟩
      rcases List.mem_cons.1 hy with rfl | hy
      · exact hfit
      · have := (hx y hy).1
        show fo + bytes < y.2.pAddr
        omega

/-- Where there is none, the area found starts before an entry passed. -/
theorem place_misfit (hl : l.Pairwise fun a b => a.2.Before b.2) (hin : ∀ x ∈ l, x.2.InOff)
    (hsmall : ∀ x ∈ l, x.2.pAddr + x.2.pSize + mmallocBlockSize + bytes < 2 ^ 63) (h0 : 0 ≤ fo)
    (hfo : fo + bytes < 2 ^ 63)
    (hfit : ¬ Fits bytes l fo) : ∃ x ∈ (place bytes l fo).1, (place bytes l fo).2.2 < x.2.pAddr := by
  induction l generalizing fo with
  | nil => exact absurd hfo hfit
  | cons x l ih =>
    obtain ⟨hx, hl⟩ := List.pairwise_cons.1 hl
    have hxin := hin x List.mem_cons_self
    have hxsmall := hsmall x List.mem_cons_self
    unfold Fits at hfit
    unfold place
    split
    · next hpass =>
      rw [if_pos hpass] at hfit
      rw [offT_next hxin (by omega)]
      have hnext : 0 ≤ x.2.pAddr + x.2.pSize + (mmallocBlockSize : Int) := by
        have := hxin.1
        omega
      obtain ⟨y, hy, hlow⟩ := ih hl (fun y hy => hin y (List.mem_cons_of_mem _ hy))
        (fun y hy => hsmall y (List.mem_cons_of_mem _ hy)) hnext hxsmall (fun h => hfit ⟨by omega, h⟩)
      exact ⟨y, List.mem_cons_of_mem _ hy, hlow⟩
    · next hpass =>
      rw [if_neg hpass] at hfit
      have hnone : ¬ offT (fo + bytes) < x.2.pAddr := by rwa [offT_eq (by omega) hfo]
      rw [if_neg hnone]
      refine ⟨x, List.mem_cons_self, ?_⟩
      have hlow : (place bytes l fo).2.2 = fo := place_low fun y hy => by
        have := (hx y hy).1
        omega
      show (place bytes l fo).2.2 < x.2.pAddr
      omega

end

/-! ## One call -/

/-- When the call adds an entry, there is room where the search goes. -/
def Harmless (st : State m) : Call m → Prop
  | .mmalloc size ans => ∀ l ∈ st.live, Allocates st.info l size ans → Fits (blockBytes size) l 0
  | .mfree _ => True

instance (st : State m) : (c : Call m) → Decidable (Harmless st c)
  | .mmalloc size ans =>
    inferInstanceAs (Decidable (∀ l ∈ st.live, Allocates st.info l size ans → Fits (blockBytes size) l 0))
  | .mfree _ => inferInstanceAs (Decidable True)

/-- Nothing in the call overflows `off_t`. -/
def Exact (st : State m) : Call m → Prop
  | .mmalloc size _ => blockBytes size < 2 ^ 63 ∧
      ∀ l ∈ st.live, ∀ x ∈ l, x.2.pAddr + x.2.pSize + mmallocBlockSize + blockBytes size < 2 ^ 63
  | .mfree _ => True

theorem pairwise_insert {α : Type} {R : α → α → Prop} {l₁ l₂ : List α} {a : α} (h : (l₁ ++ l₂).Pairwise R)
    (h₁ : ∀ x ∈ l₁, R x a) (h₂ : ∀ y ∈ l₂, R a y) : (l₁ ++ a :: l₂).Pairwise R := by
  obtain ⟨hl₁, hl₂, hapart⟩ := List.pairwise_append.1 h
  refine List.pairwise_append.2 ⟨hl₁, List.pairwise_cons.2 ⟨h₂, hl₂⟩, fun x hx y hy => ?_⟩
  rcases List.mem_cons.1 hy with rfl | hy
  · exact h₁ x hx
  · exact hapart x hx y hy

/-- The allocation puts an area at `fo`, between the entries `pre` and the entries `suf`, with room on
both sides. -/
structure Lands (info : MmallocInfo) (l : List (Ref × Ent m)) (size : Ptr m)
    (ans : Answers m) (r : Ref) (fo : Int) (pre suf : List (Ref × Ent m)) : Prop where
  old : pre ++ suf = l
  new : allocate info l size ans = pre ++ (r, ⟨ans.mmap, fo, blockBytes size⟩) :: suf
  low : 0 ≤ fo
  high : fo + blockBytes size < 2 ^ 63
  behind : ∀ a ∈ pre, a.2.pAddr + a.2.pSize < fo
  before : ∀ a ∈ suf, fo + blockBytes size < a.2.pAddr

section
variable {info : MmallocInfo} {l : List (Ref × Ent m)} {size : Ptr m} {ans : Answers m}

/-- An allocation that fits. -/
theorem allocate_lands (hl : l.Pairwise fun a b => a.2.Before b.2) (hin : ∀ a ∈ l, a.2.InOff)
    (halloc : Allocates info l size ans) (hfit : Fits (blockBytes size) l 0) :
    ∃ r junk pre suf, ans.malloc = some (r, junk) ∧
      Lands info l size ans r (place (blockBytes size) l 0).2.2 pre suf := by
  obtain ⟨_, hlow, hhigh, hpre, hsuf⟩ := place_fits (b := -1) hl hin
      (fun a ha => by have := (hin a ha).1; omega)
    (by decide) (Int.le_refl 0) hfit
  have hbytes : blockBytes size < 2 ^ 63 := by omega
  obtain ⟨r, junk, hr, heq⟩ := allocate_some halloc
  rw [pSize_eq hbytes, freeSize_eq hbytes] at heq
  exact ⟨r, junk, _, _, hr, place_append _ _ _, heq, hlow, hhigh, hpre, hsuf⟩

namespace Lands
variable {r : Ref} {fo : Int} {pre suf : List (Ref × Ent m)} (h : Lands info l size ans r fo pre suf)
include h

/-- Every entry of the new list is an old one or the new one. -/
theorem mem {a : Ref × Ent m} (ha : a ∈ allocate info l size ans) :
    a ∈ l ∨ a = (r, ⟨ans.mmap, fo, blockBytes size⟩) := by
  rw [h.new, List.mem_append, List.mem_cons] at ha
  rw [← h.old, List.mem_append]
  tauto

theorem pairwise {R : Ref × Ent m → Ref × Ent m → Prop} (hl : l.Pairwise R)
    (hbehind : ∀ a ∈ l, a.2.pAddr + a.2.pSize < fo → R a (r, ⟨ans.mmap, fo, blockBytes size⟩))
    (hbefore : ∀ a ∈ l, fo + blockBytes size < a.2.pAddr → R (r, ⟨ans.mmap, fo, blockBytes size⟩) a) :
    (allocate info l size ans).Pairwise R := by
  rw [h.new]
  apply pairwise_insert
  · rw [h.old]
    exact hl
  · intro a ha
    have hal : a ∈ l := h.old ▸ List.mem_append_left _ ha
    exact hbehind a hal (h.behind a ha)
  · intro a ha
    have hal : a ∈ l := h.old ▸ List.mem_append_right _ ha
    exact hbefore a hal (h.before a ha)

end Lands

end

/-! ## Every reachable state -/

/-- What every call keeps. -/
structure Inv (x : Session m) (l : List (Ref × Ent m)) : Prop where
  models : Models x.st l
  order : l.Pairwise fun a b => a.2.Before b.2
  inOff : ∀ a ∈ l, a.2.InOff
  enough : ∀ a ∈ l, x.asked a.1 ≤ a.2.pSize

section
variable {x y : Session m} {l : List (Ref × Ent m)}

theorem Inv.disjoint (h : Inv x l) : x.Disjoint := ⟨l, h.models.live, h.order, h.enough⟩

theorem Inv.mem (h : Inv x l) {a : Ref × Ent m} (ha : a ∈ l) : a.1 ∈ x.st.heap := by
  obtain ⟨s, _, hd⟩ := h.models
  exact hd.mem (List.mem_cons_of_mem _ (List.mem_map_of_mem ha))

/-- The request is noted for the new cell only. -/
theorem note_asked {st : State m} {size : Ptr m} {ans : Answers m} {r : Ref}
    (hr : ∀ z ∈ ans.malloc, z.1 ≠ r) : (x.note st size ans).asked r = x.asked r := by
  obtain ⟨malloc, mmap⟩ := ans
  cases malloc with
  | none => rfl
  | some z => exact if_neg (hr z rfl).symm

theorem Inv.mfree (h : Inv x l) (ptr : Ptr m) :
    ∃ y, x.next (.mfree ptr) = some y ∧ Inv y (release l ptr) := by
  obtain ⟨st', hrun, _, _, hmodels⟩ := h.models.mfree ptr
  have hsub : (release l ptr).Sublist l := List.eraseP_sublist
  refine ⟨{ x with st := st' }, by simp [Session.next, hrun], hmodels, h.order.sublist hsub, ?_, ?_⟩
  · exact fun a ha => h.inOff a (hsub.subset ha)
  · exact fun a ha => h.enough a (hsub.subset ha)

theorem Inv.mmalloc (h : Inv x l) {size : Ptr m} {ans : Answers m} (hok : ans.Allowed x.st size) :
    ∃ y, x.next (.mmalloc size ans) = some y ∧ Models y.st (allocate x.st.info l size ans) ∧
      (Harmless x.st (.mmalloc size ans) → Inv y (allocate x.st.info l size ans)) := by
  obtain ⟨st', hrun, _, _, hmodels⟩ := h.models.mmalloc size hok.fresh
  refine ⟨x.note st' size ans, by simp [Session.next, hrun], hmodels, fun hharm => ?_⟩
  have hold : ∀ a ∈ l, (x.note st' size ans).asked a.1 ≤ a.2.pSize := by
    intro a ha
    rw [note_asked]
    · exact h.enough a ha
    · rintro z hz hza
      exact hok.fresh z hz (hza ▸ h.mem ha)
  by_cases halloc : Allocates x.st.info l size ans
  · obtain ⟨r, junk, pre, suf, hr, hland⟩ :=
      allocate_lands h.order h.inOff halloc (hharm l h.models.live halloc)
    refine ⟨hmodels, hland.pairwise h.order ?_ ?_, ?_, ?_⟩
    · intro a ha hbehind
      constructor
      · show a.2.pAddr < (place (blockBytes size) l 0).2.2
        omega
      · exact Int.le_of_lt hbehind
    · intro a ha hbefore
      constructor
      · show (place (blockBytes size) l 0).2.2 < a.2.pAddr
        omega
      · exact Int.le_of_lt hbefore
    · intro a ha
      rcases hland.mem ha with ha | rfl
      · exact h.inOff a ha
      · exact ⟨hland.low, hland.high⟩
    · intro a ha
      rcases hland.mem ha with ha | rfl
      · exact hold a ha
      · have hnonzero : blockBytes size ≠ 0 := by
          intro hz
          apply halloc.2.2
          rw [hok.length hz]
          exact cInt_mapFailed
        show (x.note st' size ans).asked r ≤ blockBytes size
        have hasked : (x.note st' size ans).asked r = size.toNat := by simp [Session.note, hr]
        rw [hasked]
        exact le_blockBytes hnonzero
  · rw [allocate_none halloc] at hmodels ⊢
    exact ⟨hmodels, h.order, h.inOff, hold⟩

/-- An allocation that does not fit breaks the order. -/
theorem Inv.misfit (h : Inv x l) {size : Ptr m} {ans : Answers m} (hexact : Exact x.st (.mmalloc size ans))
    (halloc : Allocates x.st.info l size ans) (hfit : ¬ Fits (blockBytes size) l 0)
    (hy : Models y.st (allocate x.st.info l size ans)) : ¬ y.Disjoint := by
  rintro ⟨l', hl', horder, _⟩
  obtain rfl : l' = allocate x.st.info l size ans := Option.some.inj (hl'.symm.trans hy.live)
  obtain ⟨hbytes, hsmall⟩ := hexact
  obtain ⟨r, junk, hr, heq⟩ := allocate_some halloc
  rw [freeSize_eq hbytes] at heq
  obtain ⟨a, ha, hlow⟩ :=
    place_misfit h.order h.inOff (hsmall l h.models.live) (Int.le_refl 0) (by omega) hfit
  rw [heq] at horder
  have hbefore := (List.pairwise_append.1 horder).2.2 a ha _ List.mem_cons_self
  exact absurd hbefore.1 (by show ¬ a.2.pAddr < (place (blockBytes size) l 0).2.2; omega)

/-- One call. -/
theorem Inv.next (h : Inv x l) {c : Call m} (hok : c.Allowed x.st) :
    ∃ y, x.next c = some y ∧ (Harmless x.st c → ∃ l', Inv y l') ∧
      (Exact x.st c → y.Disjoint → Harmless x.st c) := by
  cases c with
  | mmalloc size ans =>
    obtain ⟨y, hrun, hmodels, hinv⟩ := h.mmalloc hok
    refine ⟨y, hrun, fun hharm => ⟨_, hinv hharm⟩, fun hexact hdis l' hl' halloc => ?_⟩
    obtain rfl : l' = l := Option.some.inj (hl'.symm.trans h.models.live)
    by_contra hfit
    exact h.misfit hexact halloc hfit hmodels hdis
  | mfree ptr =>
    obtain ⟨y, hrun, hinv⟩ := h.mfree ptr
    exact ⟨y, hrun, fun _ => ⟨_, hinv⟩, fun _ _ => trivial⟩

theorem inv_init {fd offset : Int} {size : Nat} {malloc : Option (Ref × Cell (Ent m))} {st : State m}
    (h : mmallocInit (State.start m) fd offset size malloc = some (0, st)) : Inv ⟨st, fun _ => 0⟩ [] := by
  exact ⟨(models_init h).1, .nil, by simp, by simp⟩

theorem inv_reached {x y : Session m} {l : List (Ref × Ent m)} (h : Inv x l)
    (hr : Reached Harmless x y) : ∃ l', Inv y l' := by
  apply Reaches.inv (I := fun x => ∃ l', Inv x l') hr _ ⟨l, h⟩
  rintro x c y ⟨l', h'⟩ ⟨hok, hharm⟩ hrun
  obtain ⟨z, hz, hinv, _⟩ := h'.next hok
  obtain rfl := Option.some.inj (hz.symm.trans hrun)
  exact hinv hharm

end

/-- While every allocation fits, the live areas are in order, disjoint and large enough, and no call
faults; and where nothing overflows, a call keeps them so if and only if it is harmless. -/
theorem disjoint_of_fits {fd offset : Int} {size : Nat}
    {malloc : Option (Ref × Cell (Ent m))} {st : State m}
    (hinit : mmallocInit (State.start m) fd offset size malloc = some (0, st)) {x : Session m}
    (hx : Reached Harmless ⟨st, fun _ => 0⟩ x) :
    x.Disjoint ∧ ∀ c : Call m, c.Allowed x.st →
      ∃ y, x.next c = some y ∧ (Harmless x.st c → y.Disjoint) ∧
        (Exact x.st c → (y.Disjoint ↔ Harmless x.st c)) := by
  obtain ⟨l, hinv⟩ := inv_reached (inv_init hinit) hx
  refine ⟨hinv.disjoint, fun c hok => ?_⟩
  obtain ⟨y, hrun, hgood, hbad⟩ := hinv.next hok
  have hdis : Harmless x.st c → y.Disjoint := by
    intro hharm
    obtain ⟨l', hinv'⟩ := hgood hharm
    exact hinv'.disjoint
  exact ⟨y, hrun, hdis, fun hexact => ⟨hbad hexact, hdis⟩⟩

/-- The three areas after `threeAreas`. -/
theorem disjoint_of_fits_three : ∃ x : Session .lp64, Reached Harmless ⟨oneMiB, fun _ => 0⟩ x ∧
    x.st.live.map List.length = some 3 ∧ x.Disjoint := by
  have hrun : ∃ x ∈ replay Session.next (fun x c => c.Allowed x.st ∧ Harmless x.st c) threeAreas
      ⟨oneMiB, fun _ => 0⟩, x.st.live.map List.length = some 3 := by
    decide +kernel
  obtain ⟨x, hx, hlive⟩ := hrun
  have hinit : mmallocInit (State.start .lp64) 3 0 (1024 * 1024) (some (1, junkCell)) =
      some (0, oneMiB) := rfl
  have hreach : Reached Harmless ⟨oneMiB, fun _ => 0⟩ x := replay_reaches hx
  exact ⟨x, hreach, hlive, (disjoint_of_fits hinit hreach).1⟩

/-- Allocate twice, free the first area, and allocate a larger one. -/
def overlapCalls : List (Call .lp64) :=
  [.mmalloc 100 ⟨some (2, junkCell), 0x1000⟩, .mmalloc 100 ⟨some (3, junkCell), 0x2000⟩, .mfree 0x1000,
    .mmalloc 8192 ⟨some (4, junkCell), 0x3000⟩]

/-- The last area then has 12288 bytes from 0 on, over the second one at 8192. -/
theorem mmalloc_overlaps :
    mmallocInit (State.start .lp64) 3 0 (1024 * 1024) (some (1, junkCell)) = some (0, oneMiB) ∧
      ∃ x, Reached (fun _ _ => True) ⟨oneMiB, fun _ => 0⟩ x ∧ ¬ x.Disjoint := by
  have hrun : ∃ x ∈ replay Session.next (fun x c => c.Allowed x.st ∧ True) overlapCalls
      ⟨oneMiB, fun _ => 0⟩, ¬ x.Disjoint := by
    decide +kernel
  obtain ⟨x, hx, hbad⟩ := hrun
  exact ⟨rfl, x, replay_reaches hx, hbad⟩

end Libfic2.Mmalloc
