import Libfic2.FirstFit

/-!
# How `mmalloc` fails

`mmalloc` takes the address that `mmap` has answered for an `int`, and a negative one for a
failure.  An area mapped at such an address is lost: NULL is returned, and the mapping stays.

* `failsCleanly_iff`: a call returns NULL just when something has failed, and then leaves nothing
  behind, if and only if `mmap` has failed, or its address is positive as an `int` and the
  test against the end of the window is right
* `mmalloc_loses`: a mapping that is lost
-/

namespace Libfic2.Mmalloc

open Driver Linked

variable {m : DataModel}

/-- The area ends behind the window, in exact arithmetic. -/
def Outside (info : MmallocInfo) (fo : Int) (size : Ptr m) : Prop :=
  info.offset + info.areaSize < fo + blockBytes size

instance (info : MmallocInfo) (fo : Int) (size : Ptr m) : Decidable (Outside info fo size) :=
  inferInstanceAs (Decidable (_ < _))

/-- `mmalloc` has returned `p`, and NULL only for a failure that leaves nothing behind. -/
structure FailsCleanly (st : State m) (size : Ptr m) (ans : Answers m) (p : Ptr m)
    (st' : State m) : Prop where
  fails : p = 0 ↔ (∃ fo ∈ st.chosen size, Outside st.info fo size) ∨
    ans.malloc = none ∨ ans.mmap = mapFailed m
  clean : p = 0 → st'.live = st.live ∧ st'.maps = st.maps

/-- Unless malloc or mmap fails, the test against the end of the window is right, and an address behind it
is positive as an `int`. -/
def Clear (st : State m) (size : Ptr m) (ans : Answers m) : Prop :=
  ans.malloc ≠ none → ans.mmap ≠ mapFailed m → ∀ fo ∈ st.chosen size,
    (exceeds m st.info fo (freeSize size) = true ↔ Outside st.info fo size) ∧
      (exceeds m st.info fo (freeSize size) = false → 0 ≤ cInt ans.mmap.toNat ∧ ans.mmap ≠ 0)

section
variable {st : State m} {l : List (Ref × Ent m)} {size : Ptr m} {ans : Answers m}

/-- A call that maps nothing returns NULL, and changes nothing. -/
theorem unmapped (h : ¬ MapsArea st.info l size ans) :
    answer st.info l size ans = 0 ∧ allocate st.info l size ans = l ∧ remap st l size ans = st.maps := by
  have hno : ¬ Allocates st.info l size ans := fun halloc => h halloc.mapsArea
  exact ⟨if_neg hno, allocate_none hno, if_neg h⟩

theorem failsCleanly_models (hm : Models st l) {st' : State m} (hmaps : st'.maps = remap st l size ans)
    (hm' : Models st' (allocate st.info l size ans)) :
    FailsCleanly st size ans (answer st.info l size ans) st' ↔ Clear st size ans := by
  have hchosen := hm.chosen size
  have houtside : (∃ fo ∈ st.chosen size, Outside st.info fo size) ↔
      Outside st.info (place (freeSize size) l 0).2.2 size := by
    simp [hchosen]
  by_cases hmap : MapsArea st.info l size ans
  · -- an area is mapped: the call has to return its address
    obtain ⟨hsome, hex, hok⟩ := hmap
    have hmalloc : ans.malloc ≠ none := Option.isSome_iff_ne_none.1 hsome
    have hgrow : st'.maps ≠ st.maps := by
      rw [hmaps, remap, if_pos ⟨hsome, hex, hok⟩]
      exact List.cons_ne_self _ _
    have hzero : answer st.info l size ans = 0 ↔ ¬ (0 ≤ cInt ans.mmap.toNat ∧ ans.mmap ≠ 0) := by
      unfold answer Allocates
      by_cases hneg : cInt ans.mmap.toNat < 0
      · simp [hneg]
      · simp [hsome, hex, hneg, Int.not_lt.1 hneg]
    constructor
    · rintro ⟨hfails, hclean⟩ _ _ fo hfo
      obtain rfl : (place (freeSize size) l 0).2.2 = fo := Option.some.inj (hchosen.symm.trans hfo)
      have hgood : answer st.info l size ans ≠ 0 := fun h0 => hgrow (hclean h0).2
      rw [houtside] at hfails
      have hin : ¬ Outside st.info (place (freeSize size) l 0).2.2 size :=
        fun hout => hgood (hfails.2 (.inl hout))
      exact ⟨by simp [hex, hin], fun _ => not_not.1 (hzero.not.1 hgood)⟩
    · intro hclear
      obtain ⟨htest, hpos⟩ := hclear hmalloc hok _ hchosen
      have hgood : answer st.info l size ans ≠ 0 := fun h0 => hzero.1 h0 (hpos hex)
      have hin : ¬ Outside st.info (place (freeSize size) l 0).2.2 size := by
        rw [← htest, hex]
        exact Bool.false_ne_true
      refine ⟨iff_of_false hgood ?_, fun h0 => absurd h0 hgood⟩
      rw [houtside]
      simp [hin, hmalloc, hok]
  · -- nothing is mapped: something has to have failed
    obtain ⟨h0, hl, hkeep⟩ := unmapped hmap
    have hclean : st'.live = st.live ∧ st'.maps = st.maps := by
      rw [hm'.live, hm.live, hmaps, hl, hkeep]
      exact ⟨rfl, rfl⟩
    have hfails : FailsCleanly st size ans (answer st.info l size ans) st' ↔
        Outside st.info (place (freeSize size) l 0).2.2 size ∨ ans.malloc = none ∨
        ans.mmap = mapFailed m := by
      rw [← houtside]
      exact ⟨fun h => h.fails.1 h0, fun h => ⟨⟨fun _ => h, fun _ => h0⟩, fun _ => hclean⟩⟩
    rw [hfails]
    constructor
    · intro hfailed hmalloc hok fo hfo
      obtain rfl : (place (freeSize size) l 0).2.2 = fo := Option.some.inj (hchosen.symm.trans hfo)
      have hout := hfailed.resolve_right (not_or.2 ⟨hmalloc, hok⟩)
      have hex : exceeds m st.info (place (freeSize size) l 0).2.2 (freeSize size) = true := by
        by_contra hno
        exact hmap ⟨Option.isSome_iff_ne_none.2 hmalloc, by simpa using hno, hok⟩
      exact ⟨by simp [hex, hout], by simp [hex]⟩
    · intro hclear
      by_contra hno
      obtain ⟨hin, hmalloc, hok⟩ : ¬ Outside _ _ _ ∧ ans.malloc ≠ none ∧ ans.mmap ≠ mapFailed m := by
        simpa only [not_or] using hno
      obtain ⟨htest, _⟩ := hclear hmalloc hok _ hchosen
      exact hmap ⟨Option.isSome_iff_ne_none.2 hmalloc, by simpa using htest.not.2 hin, hok⟩

end

/-- In every state reached: `mmalloc` returns NULL just when the area ends outside the window, `malloc`
has failed or `mmap` has, and leaves no trace when it does, if and only if the call is clear. -/
theorem failsCleanly_iff {fd offset : Int} {size : Nat}
    {malloc : Option (Ref × Cell (Ent m))} {st : State m}
    (hinit : mmallocInit (State.start m) fd offset size malloc = some (0, st)) {x : Session m}
    (hx : Reached (fun _ _ => True) ⟨st, fun _ => 0⟩ x) (size : Ptr m) {ans : Answers m}
    (hfresh : ∀ c ∈ ans.malloc, c.1 ∉ x.st.heap) :
    ∃ p st', mmalloc x.st size ans = some (p, st') ∧
      (FailsCleanly x.st size ans p st' ↔ Clear x.st size ans) := by
  obtain ⟨l, hmodels, _⟩ :=
    reached_models (P := fun _ _ => True) (models_init hinit).1 hx trivial (fun _ _ _ _ _ _ _ _ => trivial)
  obtain ⟨st', hrun, _, hmaps, hmodels'⟩ := hmodels.mmalloc size hfresh
  exact ⟨_, st', hrun, failsCleanly_models hmodels hmaps hmodels'⟩

theorem failsCleanly_first : ∃ p st', mmalloc oneMiB 100 ⟨some (2, junkCell), 0x1000⟩ = some (p, st') ∧
    (FailsCleanly oneMiB 100 ⟨some (2, junkCell), 0x1000⟩ p st' ↔
      Clear oneMiB 100 ⟨some (2, junkCell), 0x1000⟩) := by
  have hinit : mmallocInit (State.start .lp64) 3 0 (1024 * 1024) (some (1, junkCell)) =
      some (0, oneMiB) := rfl
  apply failsCleanly_iff hinit (x := ⟨oneMiB, fun _ => 0⟩) .refl
  decide +kernel

/-- Bit 31 of the address of the area is set: NULL is returned, and the area stays mapped. -/
theorem mmalloc_loses :
    mmallocInit (State.start .lp64) 3 0 (1024 * 1024) (some (1, junkCell)) = some (0, oneMiB) ∧
      ∃ st', mmalloc oneMiB 100 ⟨some (2, junkCell), 0x7f1280000000⟩ = some (0, st') ∧
        ¬ FailsCleanly oneMiB 100 ⟨some (2, junkCell), 0x7f1280000000⟩ 0 st' := by
  have hrun : ∃ r ∈ mmalloc oneMiB 100 ⟨some (2, junkCell), 0x7f1280000000⟩, r.1 = 0 ∧
      r.2.maps ≠ oneMiB.maps := by
    decide +kernel
  obtain ⟨⟨_, st'⟩, hst, rfl, hmaps⟩ := hrun
  exact ⟨rfl, st', hst, fun h => hmaps (h.clean rfl).2⟩

end Libfic2.Mmalloc
