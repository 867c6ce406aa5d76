import Libfic2.FirstFit

/-!
# The list stays linked, the answers stay the same

A `Books` keeps a ledger beside the allocator: a `mmalloc` that has mapped an area and returns its
address enters the cell and the mapping, `mfree` strikes out what has the pointer.  The ledger is
never read by the calls, and it does not look at the list.

* `links_kept`: after any sequence of calls the walk from `info.ent` visits the cells of the ledger,
  each once, with `prev` and `next` in step; `mfree` takes out what has the pointer and nothing else,
  and `mget_phy_addr` answers the offset at which the area was mapped
-/

namespace Libfic2.Mmalloc

open Driver Linked

variable {m : DataModel}

/-! ## The ledger -/

/-- The allocator, and the areas handed out. -/
structure Books (m : DataModel) where
  st : State m
  book : List (Ref × Ent m)

/-- After a `mmalloc` that returned `p`. -/
def Books.enter (x : Books m) (p : Ptr m) (st : State m) (ans : Answers m) : Books m where
  st := st
  book := match ans.malloc, st.maps with
    | some (r, _), mp :: _ =>
      if x.st.maps.length < st.maps.length ∧
        p = mp.ptr then (r, ⟨mp.ptr, mp.offset, mp.length⟩) :: x.book else x.book
    | _, _ => x.book

def Books.next (x : Books m) : Call m → Option (Books m)
  | .mmalloc size ans => (mmalloc x.st size ans).map fun r => x.enter r.1 r.2 ans
  | .mfree ptr => (mfree x.st ptr).map fun st => ⟨st, x.book.filter fun a => a.2.ptr ≠ ptr⟩

/-- Any sequence of calls. -/
def Kept : Books m → Books m → Prop := Reaches Books.next fun x c => c.Allowed x.st

/-! ## Addresses in `unsigned long` -/

/-- `off_t`, and on ILP32 `unsigned long`, reaches to the end of the window. -/
def Roomy (m : DataModel) (info : MmallocInfo) : Prop :=
  0 ≤ info.offset + info.areaSize ∧ info.offset + info.areaSize + mmallocBlockSize < 2 ^ 63 ∧
    (m = .ilp32 → info.offset + info.areaSize ≤ 2 ^ 32)

/-- In a window that ends at `w`. -/
structure Ent.InLong (e : Ent m) (w : Int) : Prop where
  low : 0 ≤ e.pAddr
  high : e.pAddr < 2 ^ m.sizeBits
  ends : 0 ≤ offT (e.pAddr + e.pSize) ∧ offT (e.pAddr + e.pSize) ≤ w

theorem Ent.InLong.exact {e : Ent m} {w : Int} (h : e.InLong w) :
    ((BitVec.ofInt m.sizeBits e.pAddr).toNat : Int) = e.pAddr := by
  have h0 := h.low
  have h1 := h.high
  rw [BitVec.toNat_ofInt]
  cases m <;> simp only [DataModel.sizeBits] at h1 ⊢ <;> omega

/-- A new entry. -/
theorem inLong_new {info : MmallocInfo} {l : List (Ref × Ent m)} {size : Ptr m}
    {ans : Answers m} (hroomy : Roomy m info)
    (hl : ∀ a ∈ l, a.2.InLong (info.offset + info.areaSize))
    (hlen : blockBytes size = 0 → ans.mmap = mapFailed m) (h : Allocates info l size ans) :
    Ent.InLong ⟨ans.mmap, (place (freeSize size) l 0).2.2, (freeSize size % 2 ^ m.sizeBits).toNat⟩
      (info.offset + info.areaSize) := by
  obtain ⟨h0, hoff, hlong⟩ := hroomy
  obtain ⟨hlow, hhigh⟩ : 0 ≤ (place (freeSize size) l 0).2.2 ∧
      (place (freeSize size) l 0).2.2 ≤ info.offset + info.areaSize + mmallocBlockSize := by
    apply place_candidate (P := fun v => 0 ≤ v ∧ v ≤ info.offset + info.areaSize + mmallocBlockSize)
    · exact ⟨Int.le_refl 0, by unfold mmallocBlockSize; omega⟩
    · intro x hx
      have := (hl x hx).ends
      unfold mmallocBlockSize at *
      rw [offT_eq (x := offT (x.2.pAddr + x.2.pSize) + _)] <;> omega
  have hpos : blockBytes size ≠ 0 := fun hz => h.2.2 (hlen hz ▸ cInt_mapFailed)
  have hex := h.2.1
  have hlt : blockBytes size < 2 ^ m.sizeBits := Nat.mod_lt _ (Nat.two_pow_pos _)
  unfold exceeds at hex
  unfold freeSize at *
  generalize (place (offT (blockBytes size)) l 0).2.2 = fo at hlow hhigh hex ⊢
  generalize info.offset + info.areaSize = w at *
  generalize blockBytes size = b at *
  unfold mmallocBlockSize at hhigh hoff
  cases m with
  | ilp32 =>
    simp only [DataModel.sizeBits, decide_eq_false_iff_not] at hex hlt
    have hw := hlong rfl
    rw [offT_eq (x := (b : Int)) (by omega) (by omega), offT_eq (by omega) (by omega),
      offT_eq (by omega) (by omega)] at hex
    rw [offT_eq (x := (b : Int)) (by omega) (by omega)]
    have hlen : (b : Int) % 2 ^ DataModel.ilp32.sizeBits = b :=
      Int.emod_eq_of_lt (by omega) (by exact_mod_cast hlt)
    rw [hlen]
    refine ⟨hlow, ?_, ?_⟩
    · show fo < 2 ^ 32
      omega
    · show 0 ≤ offT (fo + b) ∧ offT (fo + b) ≤ w
      rw [offT_eq (by omega) (by omega)]
      omega
  | lp64 =>
    simp only [DataModel.sizeBits, decide_eq_false_iff_not] at hex hlt
    have hlen : offT b % 2 ^ DataModel.lp64.sizeBits = b := by
      show offT b % 2 ^ 64 = b
      rw [offT_emod]
      omega
    rw [hlen]
    refine ⟨hlow, ?_, ?_⟩
    · show fo < 2 ^ 64
      omega
    · show 0 ≤ offT (fo + b) ∧ offT (fo + b) ≤ w
      have hsum : (fo + offT b) % 2 ^ 64 = (fo + b) % 2 ^ 64 := by
        have := offT_emod b
        omega
      rw [offT_of_emod (by omega)]
      omega

/-! ## What every call keeps -/

structure Books.Inv (info : MmallocInfo) (x : Books m) (l : List (Ref × Ent m)) : Prop where
  same : x.st.info = info
  models : Models x.st l
  book : l.Perm x.book
  unshared : Unshared l
  inLong : Roomy m info → ∀ a ∈ l, a.2.InLong (info.offset + info.areaSize)

section
variable {info : MmallocInfo} {x : Books m} {l : List (Ref × Ent m)}

theorem enter_allocates {size : Ptr m} {ans : Answers m} {st : State m}
    (hmaps : st.maps = remap x.st l size ans)
    (h : Allocates x.st.info l size ans) {r : Ref} {junk : Cell (Ent m)}
    (hr : ans.malloc = some (r, junk)) : (x.enter (answer x.st.info l size ans) st ans).book =
      (r, ⟨ans.mmap, (place (freeSize size) l 0).2.2, (freeSize size % 2 ^ m.sizeBits).toNat⟩) ::
      x.book := by
  unfold remap at hmaps
  rw [if_pos h.mapsArea] at hmaps
  simp [Books.enter, hr, hmaps, answer, h]

/-- A call that adds no entry returns 0, or has mapped nothing. -/
theorem enter_fails {size : Ptr m} {ans : Answers m} {st : State m}
    (hmaps : st.maps = remap x.st l size ans)
    (h : ¬ Allocates x.st.info l size ans) :
    (x.enter (answer x.st.info l size ans) st ans).book = x.book := by
  unfold Books.enter
  obtain ⟨malloc, mmap⟩ := ans
  cases malloc with
  | none => rfl
  | some c =>
    by_cases hmap : MapsArea x.st.info l size ⟨some c, mmap⟩
    · have hneg : mmap ≠ 0 := by
        rintro rfl
        exact h ⟨hmap.1, hmap.2.1, by simp [cInt]⟩
      unfold remap at hmaps
      rw [if_pos hmap] at hmaps
      simpa [hmaps, answer, h] using fun hzero => hneg (Eq.symm hzero)
    · unfold remap at hmaps
      rw [if_neg hmap] at hmaps
      rw [hmaps]
      cases x.st.maps <;> simp

theorem Books.Inv.mmalloc (h : x.Inv info l) {size : Ptr m} {ans : Answers m}
    (hok : ans.Allowed x.st size) :
    ∃ y, x.next (.mmalloc size ans) = some y ∧ y.Inv info (allocate info l size ans) := by
  obtain ⟨rfl, hmodels, hbook, hunshared, hlong⟩ := h
  obtain ⟨st', hrun, hinfo, hmaps, hmodels'⟩ := hmodels.mmalloc size hok.fresh
  refine ⟨x.enter (answer x.st.info l size ans) st' ans,
    by simp [Books.next, hrun], hinfo, hmodels', ?_, ?_, ?_⟩
  · by_cases halloc : Allocates x.st.info l size ans
    · obtain ⟨r, junk, hr, hperm⟩ := allocate_perm halloc
      rw [enter_allocates hmaps halloc hr]
      exact hperm.trans (hbook.cons _)
    · rw [enter_fails hmaps halloc, allocate_none halloc]
      exact hbook
  · exact hunshared.allocate fun halloc => hok.apart l hmodels.live halloc.mapsArea.2.2
  · intro hroomy
    exact forall_allocate (P := fun e => e.InLong _) (hlong hroomy)
      (inLong_new hroomy (hlong hroomy) hok.length)

theorem Books.Inv.mfree (h : x.Inv info l) (ptr : Ptr m) :
    ∃ y, x.next (.mfree ptr) = some y ∧ y.Inv info (release l ptr) := by
  obtain ⟨rfl, hmodels, hbook, hunshared, hlong⟩ := h
  obtain ⟨st', hrun, hinfo, _, hmodels'⟩ := hmodels.mfree ptr
  refine ⟨⟨st', x.book.filter fun a => a.2.ptr ≠ ptr⟩,
    by simp [Books.next, hrun], hinfo, hmodels', ?_, hunshared.release ptr,
    fun hroomy => forall_release (P := fun e => e.InLong _) (hlong hroomy)⟩
  rw [hunshared.release_eq]
  exact hbook.filter _

theorem Books.Inv.next (h : x.Inv info l) {c : Call m} (hok : c.Allowed x.st) :
    ∃ y l', x.next c = some y ∧ y.Inv info l' := by
  cases c with
  | mmalloc size ans =>
    obtain ⟨y, hrun, hinv⟩ := h.mmalloc hok
    exact ⟨y, _, hrun, hinv⟩
  | mfree ptr =>
    obtain ⟨y, hrun, hinv⟩ := h.mfree ptr
    exact ⟨y, _, hrun, hinv⟩

theorem Books.Inv.kept {y : Books m} (h : x.Inv info l) (hr : Kept x y) : ∃ l', y.Inv info l' := by
  apply Reaches.inv (I := fun x => ∃ l', x.Inv info l') hr _ ⟨l, h⟩
  rintro x c y ⟨l', h'⟩ hok hrun
  obtain ⟨z, l'', hz, hinv⟩ := h'.next hok
  obtain rfl := Option.some.inj (hz.symm.trans hrun)
  exact ⟨l'', hinv⟩

end

/-! ## Every state reached -/

/-- The walk from the sentinel `s` visits the cells of the ledger, each once, and their neighbours
point to them. -/
structure Books.WellLinked (x : Books m) (s : Ref) (l : List (Ref × Ent m)) : Prop where
  sentinel : x.st.info.ent = some s ∧ s ∈ x.st.heap
  walk : x.st.live = some l
  book : l.Perm x.book
  once : (s :: l.map Prod.fst).Nodup
  linked : ∀ a ∈ l, ∃ p n d, x.st.heap.lookup a.1 = some ⟨a.2, some p, n⟩ ∧
    x.st.heap.lookup p = some d ∧ d.next = some a.1 ∧
    ∀ k ∈ n, ∃ e, x.st.heap.lookup k = some e ∧ e.prev = some a.1

theorem Books.Inv.wellLinked {info : MmallocInfo} {x : Books m}
    {l : List (Ref × Ent m)} (h : x.Inv info l) : ∃ s, info.ent = some s ∧ x.WellLinked s l := by
  obtain ⟨s, hent, hd⟩ := h.models
  exact ⟨s, h.same ▸ hent, ⟨hent, hd.mem List.mem_cons_self⟩, h.models.live, h.book, hd.nodup,
    fun a ha => hd.links ha⟩

theorem inv_books {fd offset : Int} {size : Nat} {malloc : Option (Ref × Cell (Ent m))} {st : State m}
    (h : mmallocInit (State.start m) fd offset size malloc = some (0, st)) :
    Books.Inv st.info ⟨st, []⟩ [] :=
  ⟨rfl, (models_init h).1, .refl _, List.nodup_nil, fun _ => by simp⟩

/-- In every state reached the list is well linked behind the sentinel that `mmallocInit` has made,
every call has a result, `mfree` takes out the one entry with the pointer, and `mget_phy_addr` answers
for each area in the ledger the offset at which it was mapped, as an `unsigned long`; where the window
leaves room for it, that is the offset itself. -/
theorem links_kept {fd offset : Int} {size : Nat} {malloc : Option (Ref × Cell (Ent m))} {st : State m}
    (hinit : mmallocInit (State.start m) fd offset size malloc = some (0, st)) {x : Books m}
    (hx : Kept ⟨st, []⟩ x) : ∃ s l, st.info.ent = some s ∧ x.WellLinked s l ∧
      (∀ c : Call m, c.Allowed x.st → (x.next c).isSome) ∧
      (∀ ptr, ∃ st', mfree x.st ptr = some st' ∧ st'.live = some (l.filter fun a => a.2.ptr ≠ ptr) ∧
        (l.filter fun a => a.2.ptr = ptr).length ≤ 1 ∧ ((∀ a ∈ l, a.2.ptr ≠ ptr) → st' = x.st)) ∧
      ∀ a ∈ x.book, mgetPhyAddr x.st a.2.ptr = some (BitVec.ofInt m.sizeBits a.2.pAddr) ∧
        (Roomy m st.info → ((BitVec.ofInt m.sizeBits a.2.pAddr).toNat : Int) = a.2.pAddr) := by
  obtain ⟨l, hinv⟩ := (inv_books hinit).kept hx
  obtain ⟨s, hent, hlinked⟩ := hinv.wellLinked
  refine ⟨s, l, hent, hlinked, fun c hok => ?_, fun ptr => ?_, fun a ha => ?_⟩
  · obtain ⟨y, _, hrun, _⟩ := hinv.next hok
    rw [hrun]
    rfl
  · obtain ⟨st', hrun, _, hkeep, hmodels⟩ := hinv.models.mfree ptr
    rw [hinv.unshared.release_eq] at hmodels
    exact ⟨st', hrun, hmodels.live, hinv.unshared.count_le ptr, hkeep⟩
  · have hal := hinv.book.symm.subset ha
    exact ⟨hinv.models.mgetPhyAddr (hinv.unshared.find hal), fun hroomy => (hinv.inLong hroomy a hal).exact⟩

/-- Two areas, of which the first is freed, twice. -/
def twoAreas : List (Call .lp64) :=
  [.mmalloc 100 ⟨some (2, junkCell), 0x1000⟩, .mmalloc 100 ⟨some (3, junkCell), 0x2000⟩,
    .mfree 0x1000, .mfree 0x1000]

theorem links_kept_two : ∃ x : Books .lp64, Kept ⟨oneMiB, []⟩ x ∧ x.book.length = 1 ∧
    ∀ a ∈ x.book, mgetPhyAddr x.st a.2.ptr = some (BitVec.ofInt 64 a.2.pAddr) := by
  have hrun : ∃ x ∈ replay Books.next (fun x c => c.Allowed x.st) twoAreas ⟨oneMiB, []⟩,
      x.book.length = 1 := by
    decide +kernel
  obtain ⟨x, hx, hlength⟩ := hrun
  have hkept : Kept ⟨oneMiB, []⟩ x := replay_reaches hx
  have hinit : mmallocInit (State.start .lp64) 3 0 (1024 * 1024) (some (1, junkCell)) =
      some (0, oneMiB) := rfl
  obtain ⟨_, _, _, _, _, _, hphys⟩ := links_kept hinit hkept
  exact ⟨x, hkept, hlength, fun a ha => (hphys a ha).1⟩

end Libfic2.Mmalloc
