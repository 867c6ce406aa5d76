import Libfic2.Mmalloc

/-!
# First fit on lists

What `mmalloc` and `mfree` do to the list of entries, without the heap: `allocate` puts the new
entry where the search stops, `release` takes the first entry for a pointer out.

* `Models.mmalloc`, `Models.mfree`: the functions on the heap do just that, and never fail
-/

namespace Libfic2.Mmalloc

open Driver Linked

variable {m : DataModel}

/-! ## The list -/

/-- The entries the search has passed, the others, and the candidate offset. -/
def place (fs : Int) : List (Ref × Ent m) → Int → List (Ref × Ent m) × List (Ref × Ent m) × Int
  | [], fo => ([], [], fo)
  | x :: l, fo =>
    if fo ≥ x.2.pAddr then
      let r := place fs l (offT (offT (x.2.pAddr + x.2.pSize) + mmallocBlockSize))
      (x :: r.1, r.2)
    else if offT (fo + fs) < x.2.pAddr then ([], x :: l, fo)
    else
      let r := place fs l fo
      (x :: r.1, r.2)

/-- The search leaves an entry behind that neither is before the candidate nor fits behind it. -/
def Skips (fs : Int) : List (Ref × Ent m) → Int → Prop
  | [], _ => False
  | x :: l, fo =>
    if fo ≥ x.2.pAddr then Skips fs l (offT (offT (x.2.pAddr + x.2.pSize) + mmallocBlockSize))
    else ¬ offT (fo + fs) < x.2.pAddr

def allocate (info : MmallocInfo) (l : List (Ref × Ent m)) (size : Ptr m)
    (ans : Answers m) : List (Ref × Ent m) :=
  let fs := freeSize size
  let (pre, suf, fo) := place fs l 0
  match ans.malloc with
  | none => l
  | some (r, _) =>
    if exceeds m info fo fs ∨ cInt ans.mmap.toNat < 0 then l
    else pre ++ (r, ⟨ans.mmap, fo, (fs % 2 ^ m.sizeBits).toNat⟩) :: suf

/-- This call of `mmalloc` adds an entry. -/
def Allocates (info : MmallocInfo) (l : List (Ref × Ent m)) (size : Ptr m) (ans : Answers m) : Prop :=
  ans.malloc.isSome ∧ exceeds m info (place (freeSize size) l 0).2.2 (freeSize size) = false ∧
    ¬ cInt ans.mmap.toNat < 0

instance (info : MmallocInfo) (l : List (Ref × Ent m)) (size : Ptr m) (ans : Answers m) :
    Decidable (Allocates info l size ans) :=
  inferInstanceAs (Decidable (_ ∧ _))

/-- It maps an area. -/
def MapsArea (info : MmallocInfo) (l : List (Ref × Ent m)) (size : Ptr m) (ans : Answers m) : Prop :=
  ans.malloc.isSome ∧ exceeds m info (place (freeSize size) l 0).2.2 (freeSize size) = false ∧
    ans.mmap ≠ mapFailed m

instance (info : MmallocInfo) (l : List (Ref × Ent m)) (size : Ptr m) (ans : Answers m) :
    Decidable (MapsArea info l size ans) :=
  inferInstanceAs (Decidable (_ ∧ _))

/-- The pointer returned. -/
def answer (info : MmallocInfo) (l : List (Ref × Ent m)) (size : Ptr m) (ans : Answers m) : Ptr m :=
  if Allocates info l size ans then ans.mmap else 0

/-- The mappings after the call. -/
def remap (st : State m) (l : List (Ref × Ent m)) (size : Ptr m) (ans : Answers m) : List (Mapping m) :=
  if MapsArea st.info l size ans then
    ⟨ans.mmap, (freeSize size % 2 ^ m.sizeBits).toNat, (place (freeSize size) l 0).2.2⟩ :: st.maps
  else st.maps

def release (l : List (Ref × Ent m)) (ptr : Ptr m) : List (Ref × Ent m) := l.eraseP fun x => x.2.ptr = ptr

theorem place_append (fs : Int) (l : List (Ref × Ent m)) (fo : Int) :
    (place fs l fo).1 ++ (place fs l fo).2.1 = l := by
  induction l generalizing fo with
  | nil => rfl
  | cons x l ih =>
    unfold place
    split
    · exact congrArg (x :: ·) (ih _)
    · split
      · rfl
      · exact congrArg (x :: ·) (ih _)

/-! ## Requests -/

theorem blockBytes_lt (size : Ptr m) : blockBytes size < 2 ^ m.sizeBits := Nat.mod_lt _ (Nat.two_pow_pos _)

/-- Rounding up only fails by giving 0. -/
theorem le_blockBytes {size : Ptr m} (h : blockBytes size ≠ 0) : size.toNat ≤ blockBytes size := by
  have hlt : size.toNat < 2 ^ m.sizeBits := size.isLt
  revert h hlt
  unfold blockBytes mmallocBlockSize
  generalize size.toNat = n
  cases m <;> simp only [DataModel.sizeBits] <;> omega

theorem freeSize_eq {size : Ptr m} (h : blockBytes size < 2 ^ 63) : freeSize size = blockBytes size :=
  offT_eq (by omega) (by omega)

/-- `p_size` -/
theorem pSize_eq {size : Ptr m} (h : blockBytes size < 2 ^ 63) :
    (freeSize size % 2 ^ m.sizeBits).toNat = blockBytes size := by
  have hlt := blockBytes_lt size
  rw [freeSize_eq h]
  have hmod : (blockBytes size : Int) % 2 ^ m.sizeBits = blockBytes size :=
    Int.emod_eq_of_lt (by omega) (by exact_mod_cast hlt)
  rw [hmod, Int.toNat_natCast]

/-! ## The entries -/

/-- The candidate found is the first one, or lies a block behind an entry. -/
theorem place_candidate {P : Int → Prop} {fs : Int} {l : List (Ref × Ent m)} {fo : Int} (h0 : P fo)
    (hnext : ∀ x ∈ l, P (offT (offT (x.2.pAddr + x.2.pSize) + mmallocBlockSize))) :
    P (place fs l fo).2.2 := by
  induction l generalizing fo with
  | nil => exact h0
  | cons x l ih =>
    have hl : ∀ y ∈ l, P (offT (offT (y.2.pAddr + y.2.pSize) + mmallocBlockSize)) :=
      fun y hy => hnext y (List.mem_cons_of_mem _ hy)
    unfold place
    split
    · exact ih (hnext x List.mem_cons_self) hl
    · split
      · exact h0
      · exact ih h0 hl

theorem cInt_mapFailed : cInt (mapFailed m).toNat < 0 := by
  cases m <;> decide

section
variable {info : MmallocInfo} {l : List (Ref × Ent m)} {size : Ptr m} {ans : Answers m}

theorem allocate_none (h : ¬ Allocates info l size ans) : allocate info l size ans = l := by
  unfold Allocates at h
  unfold allocate
  obtain ⟨malloc, mmap⟩ := ans
  cases malloc with
  | none => rfl
  | some x =>
    apply if_pos
    by_contra hno
    obtain ⟨hex, hfail⟩ := not_or.1 hno
    exact h ⟨rfl, by simpa using hex, hfail⟩

theorem allocate_some (h : Allocates info l size ans) :
    ∃ r junk, ans.malloc = some (r, junk) ∧ allocate info l size ans = (place (freeSize size) l 0).1 ++
      (r, ⟨ans.mmap, (place (freeSize size) l 0).2.2, (freeSize size % 2 ^ m.sizeBits).toNat⟩) ::
        (place (freeSize size) l 0).2.1 := by
  obtain ⟨hsome, hex, hfail⟩ := h
  obtain ⟨malloc, mmap⟩ := ans
  obtain ⟨⟨r, junk⟩, rfl⟩ := Option.isSome_iff_exists.1 hsome
  refine ⟨r, junk, rfl, if_neg ?_⟩
  simp [hex, hfail]

theorem allocate_perm (h : Allocates info l size ans) :
    ∃ r junk, ans.malloc = some (r, junk) ∧ (allocate info l size ans).Perm
      ((r, ⟨ans.mmap, (place (freeSize size) l 0).2.2, (freeSize size % 2 ^ m.sizeBits).toNat⟩) :: l) := by
  obtain ⟨r, junk, hr, heq⟩ := allocate_some h
  refine ⟨r, junk, hr, ?_⟩
  rw [heq]
  apply List.perm_middle.trans
  rw [place_append]

theorem Allocates.mapsArea (h : Allocates info l size ans) : MapsArea info l size ans := by
  refine ⟨h.1, h.2.1, fun hfail => h.2.2 ?_⟩
  rw [hfail]
  exact cInt_mapFailed

/-- Every entry of the new list is an old one or the new one. -/
theorem forall_allocate {P : Ent m → Prop} (hold : ∀ a ∈ l, P a.2)
    (hnew : Allocates info l size ans →
      P ⟨ans.mmap, (place (freeSize size) l 0).2.2, (freeSize size % 2 ^ m.sizeBits).toNat⟩) :
    ∀ a ∈ allocate info l size ans, P a.2 := by
  intro a ha
  by_cases halloc : Allocates info l size ans
  · obtain ⟨r, junk, _, hperm⟩ := allocate_perm halloc
    rcases List.mem_cons.1 (hperm.subset ha) with rfl | ha
    · exact hnew halloc
    · exact hold a ha
  · rw [allocate_none halloc] at ha
    exact hold a ha

theorem forall_release {P : Ent m → Prop} {ptr : Ptr m} (hold : ∀ a ∈ l, P a.2) :
    ∀ a ∈ release l ptr, P a.2 :=
  fun a ha => hold a (List.mem_of_mem_eraseP ha)

/-! ## Pointers -/

/-- No two entries have the same pointer. -/
def Unshared (l : List (Ref × Ent m)) : Prop := (l.map fun a => a.2.ptr).Nodup

theorem Unshared.allocate (h : Unshared l)
    (hnew : Allocates info l size ans → ∀ a ∈ l, a.2.ptr ≠ ans.mmap) :
    Unshared (allocate info l size ans) := by
  by_cases halloc : Allocates info l size ans
  · obtain ⟨r, junk, _, hperm⟩ := allocate_perm halloc
    apply (hperm.map _).nodup_iff.2
    rw [List.map_cons]
    refine List.nodup_cons.2 ⟨fun hmem => ?_, h⟩
    obtain ⟨a, ha, heq⟩ := List.mem_map.1 hmem
    exact hnew halloc a ha heq
  · rwa [allocate_none halloc]

theorem Unshared.release (h : Unshared l) (ptr : Ptr m) : Unshared (release l ptr) :=
  h.sublist (List.eraseP_sublist.map _)

theorem Unshared.ne {x : Ref × Ent m} (h : Unshared (x :: l)) : ∀ a ∈ l, a.2.ptr ≠ x.2.ptr := by
  intro a ha heq
  apply (List.nodup_cons.1 h).1
  show x.2.ptr ∈ l.map fun a => a.2.ptr
  rw [← heq]
  exact List.mem_map_of_mem (f := fun a => a.2.ptr) ha

/-- Taking the first entry out leaves no other one for the pointer. -/
theorem Unshared.release_eq (h : Unshared l) (ptr : Ptr m) :
    Mmalloc.release l ptr = l.filter fun a => a.2.ptr ≠ ptr := by
  induction l with
  | nil => rfl
  | cons x l ih =>
    have hothers := h.ne
    have ih : (l.eraseP fun x => x.2.ptr = ptr) = l.filter fun a => a.2.ptr ≠ ptr :=
      ih (List.nodup_cons.1 h).2
    unfold Mmalloc.release
    by_cases hptr : x.2.ptr = ptr
    · subst hptr
      have hall : (l.filter fun a => a.2.ptr ≠ x.2.ptr) = l :=
        List.filter_eq_self.2 fun a ha => by simpa using hothers a ha
      rw [List.eraseP_cons_of_pos (by simp), List.filter_cons_of_neg (by simp), hall]
    · rw [List.eraseP_cons_of_neg (by simpa using hptr), List.filter_cons_of_pos (by simpa using hptr), ih]

theorem Unshared.count_le (h : Unshared l) (ptr : Ptr m) :
    (l.filter fun a => a.2.ptr = ptr).length ≤ 1 := by
  induction l with
  | nil => simp
  | cons x l ih =>
    have hothers := h.ne
    by_cases hptr : x.2.ptr = ptr
    · subst hptr
      have hnone : (l.filter fun a => a.2.ptr = x.2.ptr) = [] :=
        List.filter_eq_nil_iff.2 fun a ha => by simpa using hothers a ha
      rw [List.filter_cons_of_pos (by simp), hnone]
      exact Nat.le_refl 1
    · rw [List.filter_cons_of_neg (by simpa using hptr)]
      exact ih (List.nodup_cons.1 h).2

/-- The entry found is the only one. -/
theorem Unshared.find (h : Unshared l) {a : Ref × Ent m} (ha : a ∈ l) :
    (l.find? fun x => x.2.ptr = a.2.ptr) = some a := by
  induction l with
  | nil => cases ha
  | cons x l ih =>
    rcases List.mem_cons.1 ha with rfl | ha
    · simp
    · have hne : x.2.ptr ≠ a.2.ptr := (h.ne a ha).symm
      rw [List.find?_cons_of_neg (by simpa using hne)]
      exact ih (List.nodup_cons.1 h).2 ha

end

/-! ## The heap -/

/-- The entries of `st` are those of `l`. -/
def Models (st : State m) (l : List (Ref × Ent m)) : Prop := ∃ s, st.info.ent = some s ∧ DList st.heap s l

section
variable {h : Heap (Ent m)} {l : List (Ref × Ent m)} {p : Ref} {r q p' : Option Ref} {n : Nat}

theorem search_eq {f o : Int} (hs : Seg h (some p) r l p' none) (hn : l.length ≤ n) :
    ∃ prev, (p :: (place f l o).1.map Prod.fst).getLast? = some prev ∧
      search f h n p r o = some (prev, (place f l o).2.1.head?.map Prod.fst, (place f l o).2.2) := by
  induction l generalizing p r n o with
  | nil =>
    obtain ⟨_, rfl⟩ := hs
    refine ⟨p, rfl, ?_⟩
    cases n <;> rfl
  | cons x l ih =>
    obtain ⟨ent, e⟩ := x
    obtain ⟨rfl, k, hent, hs⟩ := hs
    cases n with
    | zero => simp at hn
    | succ n =>
      have hn' : l.length ≤ n := Nat.le_of_succ_le_succ hn
      unfold search place
      simp only [hent, Option.bind_eq_bind, Option.bind_some]
      split
      · obtain ⟨prev, hlast, hrest⟩ := ih (o := offT (offT (e.pAddr + e.pSize) + mmallocBlockSize)) hs hn'
        exact ⟨prev, by simpa using hlast, hrest⟩
      · split
        · exact ⟨p, rfl, rfl⟩
        · obtain ⟨prev, hlast, hrest⟩ := ih (o := o) hs hn'
          exact ⟨prev, by simpa using hlast, hrest⟩

theorem find_eq (ptr : Ptr m) (hs : Seg h q r l p' none) (hn : l.length ≤ n) :
    find h ptr n r = some ((l.find? fun x => x.2.ptr = ptr).map Prod.fst) := by
  induction l generalizing q r n with
  | nil =>
    obtain ⟨_, rfl⟩ := hs
    cases n <;> rfl
  | cons x l ih =>
    obtain ⟨ent, e⟩ := x
    obtain ⟨rfl, k, hent, hs⟩ := hs
    cases n with
    | zero => simp at hn
    | succ n =>
      unfold find
      simp only [hent, Option.bind_eq_bind, Option.bind_some]
      by_cases he : e.ptr = ptr
      · simp [he]
      · simp [he, ih hs (Nat.le_of_succ_le_succ hn)]

end

section
variable {st : State m} {l : List (Ref × Ent m)}

theorem models_init {fd offset : Int} {size : Nat} {malloc : Option (Ref × Cell (Ent m))}
    (h : mmallocInit (State.start m) fd offset size malloc = some (0, st)) :
    Models st [] ∧ st.info.offset = offset ∧ st.info.areaSize = size := by
  unfold mmallocInit at h
  split at h
  · next hfd =>
    obtain ⟨rfl, _⟩ := Prod.mk.inj (Option.some.inj h)
    exact absurd hfd (by decide)
  · obtain ⟨⟨r, junk⟩, _, hst⟩ := Option.bind_eq_some_iff.1 h
    obtain ⟨_, rfl⟩ := Prod.mk.inj (Option.some.inj hst)
    exact ⟨⟨r, rfl, ⟨junk.val, some r, rfl, none, AList.lookup_insert _, rfl, rfl⟩, by simp⟩, rfl, rfl⟩

theorem Models.live (hm : Models st l) : st.live = some l := by
  obtain ⟨s, hent, hd⟩ := hm
  obtain ⟨c, hc, _, hcells⟩ := hd.cells
  simp [State.live, hent, hc, hcells]

theorem Models.chosen (hm : Models st l) (size : Ptr m) :
    st.chosen size = some (place (freeSize size) l 0).2.2 := by
  obtain ⟨s, hent, hd⟩ := hm
  obtain ⟨a, p', _, n, hs, hseg⟩ := hd.seg
  obtain ⟨prev, _, hsearch⟩ := search_eq (f := freeSize size) (o := 0) hseg (Nat.le_of_lt hd.length_lt)
  simp [State.chosen, hent, hs, hsearch]

theorem Models.mmalloc (hm : Models st l) (size : Ptr m) {ans : Answers m}
    (hfresh : ∀ x ∈ ans.malloc, x.1 ∉ st.heap) :
    ∃ st', mmalloc st size ans = some (answer st.info l size ans, st') ∧ st'.info = st.info ∧
      st'.maps = remap st l size ans ∧ Models st' (allocate st.info l size ans) := by
  obtain ⟨s, hent, hd⟩ := hm
  obtain ⟨a, p', _, n, hs, hseg⟩ := hd.seg
  obtain ⟨prev, hlast, hsearch⟩ := search_eq (f := freeSize size) (o := 0) hseg (Nat.le_of_lt hd.length_lt)
  have hsplit := place_append (freeSize size) l 0
  unfold Mmalloc.mmalloc allocate
  simp only [hent, hs, hsearch, Option.bind_eq_bind, Option.bind_some]
  clear hsearch
  obtain ⟨malloc, mmap⟩ := ans
  rcases hplace : place (freeSize size) l 0 with ⟨pre, suf, fo⟩
  rw [hplace] at hlast hsplit
  cases malloc with
  | none => exact ⟨st, by simp [answer, Allocates], rfl, by simp [remap, MapsArea], s, hent, hd⟩
  | some x =>
    obtain ⟨r, junk⟩ := x
    have hr : r ∉ st.heap := hfresh _ rfl
    by_cases hex : exceeds m st.info fo (freeSize size) = true
    · simp only [hex, if_true, true_or]
      exact ⟨st,
        by simp [answer, Allocates, hplace, hex], rfl, by simp [remap, MapsArea, hplace, hex], s, hent, hd⟩
    · let maps :=
        if mmap = mapFailed m then st.maps
          else ⟨mmap, (freeSize size % 2 ^ m.sizeBits).toNat, fo⟩ :: st.maps
      have hmaps : maps = remap st l size ⟨some (r, junk), mmap⟩ := by
        simp [maps, remap, MapsArea, hplace, hex]
      by_cases hfail : cInt mmap.toNat < 0
      · have hzero : answer st.info l size ⟨some (r, junk), mmap⟩ = 0 := by simp [answer, Allocates, hfail]
        simp only [hex, hfail, if_true, or_true]
        exact ⟨{ st with heap := st.heap.insert r junk, maps := maps },
          by simp [hzero, maps], rfl, hmaps, s, hent, hd.insert hr junk⟩
      · have hptr : answer st.info l size ⟨some (r, junk), mmap⟩ = mmap := by
          simp [answer, Allocates, hplace, hex, hfail]
        simp only [if_neg hex, if_neg hfail, if_neg (not_or.2 ⟨hex, hfail⟩)]
        cases suf with
        | nil =>
          obtain rfl : pre = l := by simpa using hsplit
          obtain ⟨h', hrun, hd'⟩ := hd.append hlast hr ⟨mmap, fo, (freeSize size % 2 ^ m.sizeBits).toNat⟩
          exact ⟨{ st with heap := h', maps := maps }, by simp [hrun, hptr, maps], rfl, hmaps, s, hent, hd'⟩
        | cons y suf =>
          rw [← hsplit] at hd
          obtain ⟨h', hrun, hd'⟩ := hd.insertBefore hr ⟨mmap, fo, (freeSize size % 2 ^ m.sizeBits).toNat⟩
          exact ⟨{ st with heap := h', maps := maps }, by simp [hrun, hptr, maps], rfl, hmaps, s, hent, hd'⟩

theorem Models.mfree (hm : Models st l) (ptr : Ptr m) :
    ∃ st', mfree st ptr = some st' ∧ st'.info = st.info ∧ ((∀ x ∈ l, x.2.ptr ≠ ptr) → st' = st) ∧
      Models st' (release l ptr) := by
  obtain ⟨s, hent, hd⟩ := hm
  obtain ⟨a, p', _, n, hs, hseg⟩ := hd.seg
  have hfind := find_eq ptr hseg (Nat.le_of_lt hd.length_lt)
  unfold Mmalloc.mfree
  simp only [hent, hs, hfind, Option.bind_eq_bind, Option.bind_some]
  cases hf : l.find? fun x => x.2.ptr = ptr with
  | none =>
    have hkeep : release l ptr = l := List.eraseP_of_forall_not (by simpa using hf)
    rw [hkeep]
    exact ⟨st, rfl, rfl, fun _ => rfl, s, hent, hd⟩
  | some x =>
    obtain ⟨ent, e⟩ := x
    obtain ⟨he, l₁, l₂, rfl, hbefore⟩ := List.find?_eq_some_iff_append.1 hf
    have hrel : release (l₁ ++ (ent, e) :: l₂) ptr = l₁ ++ l₂ := by
      unfold release
      rw [List.eraseP_append_right _ (by simpa using hbefore)]
      simp only [List.eraseP_cons, he, cond_true]
    obtain ⟨c, hc⟩ : ∃ c, st.heap.lookup ent = some c :=
      Option.isSome_iff_exists.1 (AList.lookup_isSome.2 (hd.mem (by simp)))
    obtain ⟨h', hun, hd'⟩ := hd.unlink
    simp only [Option.map_some, hc, hun, Option.bind_some]
    rw [hrel]
    exact ⟨_, rfl, rfl, fun hno => absurd (by simpa using he) (hno (ent, e) (by simp)), s, hent, hd'⟩

theorem Models.mgetPhyAddr (hm : Models st l) {ptr : Ptr m} {a : Ref × Ent m}
    (ha : (l.find? fun x => x.2.ptr = ptr) = some a) :
    mgetPhyAddr st ptr = some (BitVec.ofInt m.sizeBits a.2.pAddr) := by
  obtain ⟨s, hent, hd⟩ := hm
  obtain ⟨_, p', _, n, hs, hseg⟩ := hd.seg
  have hfind := find_eq ptr hseg (Nat.le_of_lt hd.length_lt)
  obtain ⟨p, k, d, hc, _⟩ := hd.links (List.mem_of_find?_eq_some ha)
  unfold Mmalloc.mgetPhyAddr
  simp [hent, hs, hfind, ha, hc]

end

/-! ## Sequences of calls -/

/-- The list after a call. -/
def Call.after (info : MmallocInfo) (l : List (Ref × Ent m)) : Call m → List (Ref × Ent m)
  | .mmalloc size ans => allocate info l size ans
  | .mfree ptr => release l ptr

/-- The sizes asked for. -/
def Call.notes (asked : Ref → Nat) : Call m → Ref → Nat
  | .mmalloc size ans => match ans.malloc with
    | none => asked
    | some (r, _) => fun q => if q = r then size.toNat else asked q
  | .mfree _ => asked

theorem Models.next {x : Session m} {l : List (Ref × Ent m)} (hm : Models x.st l) {c : Call m}
    (hok : c.Allowed x.st) :
    ∃ y, x.next c = some y ∧ y.st.info = x.st.info ∧ y.asked = c.notes x.asked ∧
      Models y.st (c.after x.st.info l) := by
  cases c with
  | mmalloc size ans =>
    obtain ⟨st', hrun, hinfo, _, hmodels⟩ := hm.mmalloc size hok.fresh
    exact ⟨x.note st' size ans, by simp [Session.next, hrun], hinfo, rfl, hmodels⟩
  | mfree ptr =>
    obtain ⟨st', hrun, hinfo, _, hmodels⟩ := hm.mfree ptr
    exact ⟨{ x with st := st' }, by simp [Session.next, hrun], hinfo, rfl, hmodels⟩

/-- What every call keeps of the list and the sizes holds of every state reached. -/
theorem reached_models {C : State m → Call m → Prop} {P : (Ref → Nat) → List (Ref × Ent m) → Prop}
    {st : State m} {x : Session m}
    (hm : Models st []) (hx : Reached C ⟨st, fun _ => 0⟩ x) (h0 : P (fun _ => 0) [])
    (hstep : ∀ (y : Session m) l c, Models y.st l → y.st.info = st.info → P y.asked l →
      c.Allowed y.st → C y.st c →
      P (c.notes y.asked) (c.after st.info l)) :
    ∃ l, Models x.st l ∧ x.st.info = st.info ∧ P x.asked l := by
  apply Reaches.inv (I := fun x => ∃ l, Models x.st l ∧ x.st.info = st.info ∧
    P x.asked l) hx _ ⟨[], hm, rfl, h0⟩
  rintro x c y ⟨l, hmodels, hinfo, hP⟩ ⟨hok, hC⟩ hrun
  obtain ⟨z, hz, hinfo', hasked, hmodels'⟩ := hmodels.next hok
  obtain rfl := Option.some.inj (hz.symm.trans hrun)
  rw [hinfo] at hinfo' hmodels'
  refine ⟨_, hmodels', hinfo', ?_⟩
  rw [hasked]
  exact hstep x l c hmodels hinfo hP hok hC

end Libfic2.Mmalloc
