import Mathlib.Data.List.AList

/-!
# Doubly linked lists in a heap

Cells carry a value and two references, of which `none` is the null pointer.  A walk
along `next` that visits more cells than the heap has is in a cycle and never ends.

`Seg h p r l p' r'`: from `r` on stand the cells of `l`, linked both ways, the first
one with `p` as its `prev` and the last one with `r'` as its `next`; `p'` is the last
cell, or `p` when there is none.  `DList h s l`: behind the sentinel `s` stand the
cells of `l`, and nothing else.

The operations are `insertBefore`, `append` and `unlink`, each with one rule on `DList`.
-/

namespace Linked

abbrev Ref := Nat

structure Cell (α : Type) where
  val : α
  prev : Option Ref
  next : Option Ref
deriving DecidableEq, Repr

abbrev Heap (α : Type) := AList fun _ : Ref => Cell α

variable {α : Type}

/-- `r->next = n`; there is no answer when `r` points nowhere. -/
def setNext (h : Heap α) (r : Ref) (n : Option Ref) : Option (Heap α) :=
  (h.lookup r).map fun c => h.insert r { c with next := n }

def setPrev (h : Heap α) (r : Ref) (p : Option Ref) : Option (Heap α) :=
  (h.lookup r).map fun c => h.insert r { c with prev := p }

/-- `if (r) r->next = n;` -/
def setNextIf (h : Heap α) (r : Option Ref) (n : Option Ref) : Option (Heap α) :=
  match r with
  | none => some h
  | some r => setNext h r n

def setPrevIf (h : Heap α) (r : Option Ref) (p : Option Ref) : Option (Heap α) :=
  match r with
  | none => some h
  | some r => setPrev h r p

/-- A new cell `r` between `q->prev` and `q`. -/
def insertBefore (h : Heap α) (r q : Ref) (a : α) : Option (Heap α) := do
  let c ← h.lookup q
  let h ← setNextIf (h.insert r ⟨a, c.prev, some q⟩) c.prev (some r)
  setPrev h q (some r)

/-- A new cell `r` behind `p`. -/
def append (h : Heap α) (p r : Ref) (a : α) : Option (Heap α) := do
  let h ← setNext (h.insert r ⟨a, none, none⟩) p (some r)
  setPrev h r (some p)

/-- Take `r` out of its list and free it. -/
def unlink (h : Heap α) (r : Ref) : Option (Heap α) := do
  let c ← h.lookup r
  let h ← setNextIf h c.prev c.next
  let c ← h.lookup r
  let h ← setPrevIf h c.next c.prev
  some (h.erase r)

/-- The cells from `r` on. -/
def cells (h : Heap α) : Nat → Option Ref → Option (List (Ref × α))
  | _, none => some []
  | 0, some _ => none
  | n + 1, some r => do
    let c ← h.lookup r
    let l ← cells h n c.next
    some ((r, c.val) :: l)

/-! ## Segments -/

def Seg (h : Heap α) : (p r : Option Ref) → List (Ref × α) → (p' r' : Option Ref) → Prop
  | p, r, [], p', r' => p = p' ∧ r = r'
  | p, r, (q, a) :: l, p', r' => r = some q ∧ ∃ n, h.lookup q = some ⟨a, p, n⟩ ∧ Seg h (some q) n l p' r'

section
variable {h h' : Heap α} {p r p' r' : Option Ref} {l l₁ l₂ : List (Ref × α)} {q : Ref} {a b : α}

theorem seg_append : Seg h p r (l₁ ++ l₂) p' r' ↔ ∃ m n, Seg h p r l₁ m n ∧ Seg h m n l₂ p' r' := by
  induction l₁ generalizing p r with
  | nil =>
    constructor
    · intro hs
      exact ⟨p, r, ⟨rfl, rfl⟩, hs⟩
    · rintro ⟨m, n, ⟨rfl, rfl⟩, hs⟩
      exact hs
  | cons x l₁ ih =>
    obtain ⟨q, a⟩ := x
    constructor
    · rintro ⟨hr, n, hq, hs⟩
      obtain ⟨m, k, h₁, h₂⟩ := ih.1 hs
      exact ⟨m, k, ⟨hr, n, hq, h₁⟩, h₂⟩
    · rintro ⟨m, k, ⟨hr, n, hq, h₁⟩, h₂⟩
      exact ⟨hr, n, hq, ih.2 ⟨m, k, h₁, h₂⟩⟩

/-- A segment depends on its own cells only. -/
theorem Seg.frame (hs : Seg h p r l p' r') (hl : ∀ x ∈ l, h'.lookup x.1 = h.lookup x.1) :
    Seg h' p r l p' r' := by
  induction l generalizing p r with
  | nil => exact hs
  | cons x l ih =>
    obtain ⟨q, a⟩ := x
    obtain ⟨hr, n, hq, hs⟩ := hs
    refine ⟨hr, n, ?_, ih hs fun y hy => hl y (List.mem_cons_of_mem _ hy)⟩
    rw [hl (q, a) List.mem_cons_self]
    exact hq

theorem Seg.mem (hs : Seg h p r l p' r') {x : Ref × α} (hx : x ∈ l) : x.1 ∈ h := by
  induction l generalizing p r with
  | nil => cases hx
  | cons y l ih =>
    obtain ⟨q, a⟩ := y
    obtain ⟨_, n, hq, hs⟩ := hs
    rcases List.mem_cons.1 hx with rfl | hx
    · exact AList.lookup_isSome.1 (by rw [hq]; rfl)
    · exact ih hs hx

/-- The last cell of a segment. -/
theorem Seg.last (hs : Seg h p r (l ++ [(q, a)]) p' r') :
    p' = some q ∧ ∃ m, h.lookup q = some ⟨a, m, r'⟩ ∧ Seg h p r l m (some q) := by
  obtain ⟨m, n, h₁, rfl, k, hq, rfl, rfl⟩ := seg_append.1 hs
  exact ⟨rfl, m, hq, h₁⟩

theorem Seg.cells (hs : Seg h p r l p' none) {n : Nat} (hn : l.length ≤ n) : cells h n r = some l := by
  induction l generalizing p r n with
  | nil =>
    obtain ⟨_, rfl⟩ := hs
    cases n <;> rfl
  | cons x l ih =>
    obtain ⟨q, a⟩ := x
    obtain ⟨rfl, k, hq, hs⟩ := hs
    cases n with
    | zero => simp at hn
    | succ n => simp [Linked.cells, hq, ih hs (Nat.le_of_succ_le_succ hn)]

end

/-- The last cell of a segment, and the segment after its `next` has changed. -/
theorem Seg.relink {h : Heap α} {p r k : Option Ref} {l : List (Ref × α)} {q : Ref}
    (hs : Seg h p r l (some q) k) (hl : l ≠ []) (hn : (l.map Prod.fst).Nodup) :
    (l.map Prod.fst).getLast? = some q ∧ ∃ c, h.lookup q = some c ∧ c.next = k ∧
      ∀ (h' : Heap α) (k' : Option Ref), h'.lookup q = some { c with next := k' } →
        (∀ x ∈ l, x.1 ≠ q → h'.lookup x.1 = h.lookup x.1) → Seg h' p r l (some q) k' := by
  obtain ⟨xs, ⟨q', a⟩, rfl⟩ := (List.eq_nil_or_concat' l).resolve_left hl
  obtain ⟨hq, m, hc, hxs⟩ := hs.last
  obtain rfl := Option.some.inj hq
  refine ⟨by simp, _, hc, rfl, fun h' k' hc' hag => ?_⟩
  rw [List.map_append, List.nodup_append] at hn
  have hkept : Seg h' p r xs m (some q) := by
    apply hxs.frame
    intro x hx
    exact hag x (List.mem_append_left _ hx) (hn.2.2 x.1 (List.mem_map_of_mem hx) q (by simp))
  exact seg_append.2 ⟨m, some q, hkept, rfl, k', hc', rfl, rfl⟩

/-! ## Lists behind a sentinel -/

structure DList (h : Heap α) (s : Ref) (l : List (Ref × α)) : Prop where
  seg : ∃ a p', Seg h none (some s) ((s, a) :: l) p' none
  nodup : (s :: l.map Prod.fst).Nodup

section
variable {h : Heap α} {s r q : Ref} {l l₁ l₂ : List (Ref × α)} {a b : α}

theorem lookup_insert_eq (h : Heap α) (r : Ref) (c : Cell α) (x : Ref) :
    (h.insert r c).lookup x = if x = r then some c else h.lookup x := by
  split
  · next hx => rw [hx, AList.lookup_insert]
  · next hx => exact AList.lookup_insert_ne hx

theorem setNext_eq {c : Cell α} (hc : h.lookup r = some c) (n : Option Ref) :
    setNext h r n = some (h.insert r { c with next := n }) := by
  rw [setNext, hc]
  rfl

theorem setPrev_eq {c : Cell α} (hc : h.lookup r = some c) (p : Option Ref) :
    setPrev h r p = some (h.insert r { c with prev := p }) := by
  rw [setPrev, hc]
  rfl

/-- Cut a list behind some cell `p`; the second part may be replaced. -/
theorem DList.splice (hd : DList h s (l₁ ++ l₂)) :
    ∃ p c p', (s :: l₁.map Prod.fst).getLast? = some p ∧ h.lookup p = some c ∧
      Seg h (some p) c.next l₂ p' none ∧
      ∀ (h' : Heap α) k' l₂' p'', h'.lookup p = some { c with next := k' } →
        (∀ x ∈ s :: l₁.map Prod.fst, x ≠ p → h'.lookup x = h.lookup x) → Seg h' (some p) k' l₂' p'' none →
        (s :: (l₁ ++ l₂').map Prod.fst).Nodup → DList h' s (l₁ ++ l₂') := by
  obtain ⟨a, p', hs⟩ := hd.seg
  obtain ⟨m, k, h₁, h₂⟩ := seg_append.1 (show Seg h none (some s) (((s, a) :: l₁) ++ l₂) p' none from hs)
  obtain ⟨xs, ⟨p, d⟩, hx⟩ := (List.eq_nil_or_concat' ((s, a) :: l₁)).resolve_left (List.cons_ne_nil _ _)
  obtain rfl : m = some p := (Seg.last (hx ▸ h₁)).1
  have hall : (((s, a) :: l₁).map Prod.fst ++ l₂.map Prod.fst).Nodup := by simpa using hd.nodup
  have hn := hall.of_append_left
  obtain ⟨hmem, c, hc, rfl, hrelink⟩ := h₁.relink (List.cons_ne_nil _ _) hn
  refine ⟨p, c, p', hmem, hc, h₂, fun h' k' l₂' p'' hc' hag hs' hn' => ⟨⟨a, p'', ?_⟩, hn'⟩⟩
  have hfirst := hrelink h' k' hc' fun x hx => hag x.1 (List.mem_map_of_mem (f := Prod.fst) hx)
  exact seg_append.2 ⟨some p, k', hfirst, hs'⟩

theorem DList.mem (hd : DList h s l) {x : Ref} (hx : x ∈ s :: l.map Prod.fst) : x ∈ h := by
  obtain ⟨a, p', hs⟩ := hd.seg
  rcases List.mem_cons.1 hx with rfl | hx
  · exact hs.mem (x := (x, a)) List.mem_cons_self
  · obtain ⟨y, hy, rfl⟩ := List.mem_map.1 hx
    exact hs.mem (List.mem_cons_of_mem _ hy)

/-- The neighbours of a cell point to it. -/
theorem DList.links (hd : DList h s l) {x : Ref × α} (hx : x ∈ l) :
    ∃ p n d, h.lookup x.1 = some ⟨x.2, some p, n⟩ ∧ h.lookup p = some d ∧ d.next = some x.1 ∧
      ∀ k ∈ n, ∃ e, h.lookup k = some e ∧ e.prev = some x.1 := by
  obtain ⟨l₁, l₂, rfl⟩ := List.append_of_mem hx
  obtain ⟨p, d, p', _, hp, ⟨hnext, n, hc, hright⟩, _⟩ := hd.splice
  refine ⟨p, n, d, hc, hp, hnext, fun k hk => ?_⟩
  cases l₂ with
  | nil =>
    obtain ⟨_, rfl⟩ := hright
    cases hk
  | cons y l₂ =>
    obtain ⟨rfl, _, hlook, _⟩ := hright
    obtain rfl := Option.some.inj hk
    exact ⟨_, hlook, rfl⟩

/-- A list is not longer than the heap. -/
theorem DList.length_lt (hd : DList h s l) : l.length < h.keys.length := by
  have hsub : (s :: l.map Prod.fst) ⊆ h.keys := fun x hx => AList.mem_keys.1 (hd.mem hx)
  have hle := (List.subperm_of_subset hd.nodup hsub).length_le
  rw [List.length_cons, List.length_map] at hle
  omega

/-- A walk from the sentinel visits every cell and ends. -/
theorem DList.cells (hd : DList h s l) :
    ∃ c, h.lookup s = some c ∧ c.prev = none ∧ cells h h.keys.length c.next = some l := by
  obtain ⟨a, p', _, n, hc, hs⟩ := hd.seg
  exact ⟨_, hc, rfl, hs.cells (Nat.le_of_lt hd.length_lt)⟩

/-- The same list in another heap that has the same cells. -/
theorem DList.frame {h' : Heap α} (hd : DList h s l)
    (hag : ∀ x ∈ s :: l.map Prod.fst, h'.lookup x = h.lookup x) : DList h' s l := by
  obtain ⟨a, p', hs⟩ := hd.seg
  refine ⟨⟨a, p', hs.frame fun x hx => hag x.1 ?_⟩, hd.nodup⟩
  rcases List.mem_cons.1 hx with rfl | hx
  · exact List.mem_cons_self
  · exact List.mem_cons_of_mem _ (List.mem_map_of_mem hx)

/-- A fresh cell is in no list. -/
theorem DList.insert (hd : DList h s l) (hr : r ∉ h) (c : Cell α) : DList (h.insert r c) s l := by
  apply hd.frame
  intro x hx
  rw [lookup_insert_eq, if_neg]
  rintro rfl
  exact hr (hd.mem hx)

end

/-! ## The operations on lists -/

section
variable {h : Heap α} {s r q : Ref} {l l₁ l₂ : List (Ref × α)} {a b : α}

theorem DList.insertBefore (hd : DList h s (l₁ ++ (q, b) :: l₂)) (hr : r ∉ h) (a : α) :
    ∃ h', insertBefore h r q a = some h' ∧ DList h' s (l₁ ++ (r, a) :: (q, b) :: l₂) := by
  obtain ⟨p, c, p', hlast, hp, ⟨hcq, n, hq, hright⟩, hsplice⟩ := hd.splice
  have hpl := List.mem_of_getLast? hlast
  have hn : ((s :: l₁.map Prod.fst) ++ q :: l₂.map Prod.fst).Nodup := by simpa using hd.nodup
  obtain ⟨_, hnr, hapart⟩ := List.nodup_append.1 hn
  have hnew : ∀ x ∈ s :: (l₁ ++ (q, b) :: l₂).map Prod.fst, x ≠ r := by
    rintro x hx rfl
    exact hr (hd.mem hx)
  have hpr : p ≠ r := hnew p (by simp at hpl ⊢; tauto)
  have hqr : q ≠ r := hnew q (by simp)
  have hqp : q ≠ p := (hapart p hpl q List.mem_cons_self).symm
  let h₁ := h.insert r ⟨a, some p, some q⟩
  let h₂ := h₁.insert p { c with next := some r }
  let h₃ := h₂.insert q ⟨b, some r, n⟩
  -- what the new heap holds
  have hlook : ∀ x, h₃.lookup x = if x = q then some ⟨b, some r, n⟩
      else if x = p then some { c with next := some r }
      else if x = r then some ⟨a, some p, some q⟩ else h.lookup x := by
    intro x
    rw [lookup_insert_eq, lookup_insert_eq, lookup_insert_eq]
  have hrun : Linked.insertBefore h r q a = some h₃ := by
    have hp₁ : h₁.lookup p = some c := by rw [lookup_insert_eq, if_neg hpr, hp]
    have hq₂ : h₂.lookup q = some ⟨b, some p, n⟩ := by
      rw [lookup_insert_eq, if_neg hqp, lookup_insert_eq, if_neg hqr, hq]
    unfold Linked.insertBefore
    rw [hq]
    show (setNext h₁ p (some r) >>= _) = _
    rw [setNext_eq hp₁]
    exact setPrev_eq hq₂ _
  refine ⟨h₃, hrun, hsplice h₃ (some r) _ p' ?_ ?_ ⟨rfl, some q, ?_, rfl, n, ?_, hright.frame ?_⟩ ?_⟩
  · rw [hlook, if_neg hqp.symm, if_pos rfl]
  · intro x hx hxp
    rw [hlook, if_neg (hapart x hx q List.mem_cons_self), if_neg hxp,
      if_neg (hnew x (by simp at hx ⊢; tauto))]
  · rw [hlook, if_neg hqr.symm, if_neg hpr.symm, if_pos rfl]
  · rw [hlook, if_pos rfl]
  · intro x hx
    have hx' : x.1 ∈ l₂.map Prod.fst := List.mem_map_of_mem hx
    have hxq : x.1 ≠ q := by
      intro hxq
      exact (List.nodup_cons.1 hnr).1 (hxq ▸ hx')
    have hxp : x.1 ≠ p := (hapart p hpl x.1 (List.mem_cons_of_mem _ hx')).symm
    rw [hlook, if_neg hxq, if_neg hxp, if_neg (hnew x.1 (by simp at hx' ⊢; tauto))]
  · have hrs : r ∉ s :: (l₁ ++ (q, b) :: l₂).map Prod.fst := fun hmem => hr (hd.mem hmem)
    have hperm : (s :: (l₁ ++ (r, a) :: (q, b) :: l₂).map Prod.fst).Perm
        (r :: s :: (l₁ ++ (q, b) :: l₂).map Prod.fst) := by
      simp only [List.map_append, List.map_cons]
      exact (List.perm_middle.cons s).trans (.swap r s _)
    exact hperm.nodup_iff.2 (List.nodup_cons.2 ⟨hrs, hd.nodup⟩)

/-- `p` is the last cell, or the sentinel. -/
theorem DList.append (hd : DList h s l) {p : Ref}
    (hp : (s :: l.map Prod.fst).getLast? = some p) (hr : r ∉ h) (a : α) :
    ∃ h', append h p r a = some h' ∧ DList h' s (l ++ [(r, a)]) := by
  have hd' : DList h s (l ++ []) := by rwa [List.append_nil]
  obtain ⟨p₀, c, p', hlast, hc, ⟨_, _⟩, hsplice⟩ := hd'.splice
  obtain rfl : p = p₀ := Option.some.inj (hp.symm.trans hlast)
  have hpl := List.mem_of_getLast? hlast
  have hnew : ∀ x ∈ s :: l.map Prod.fst, x ≠ r := by
    rintro x hx rfl
    exact hr (hd.mem hx)
  let h₁ := h.insert r ⟨a, none, none⟩
  let h₂ := h₁.insert p { c with next := some r }
  let h₃ := h₂.insert r ⟨a, some p, none⟩
  have hlook : ∀ x, h₃.lookup x = if x = r then some ⟨a, some p, none⟩
      else if x = p then some { c with next := some r } else h.lookup x := by
    intro x
    rw [lookup_insert_eq, lookup_insert_eq, lookup_insert_eq]
    split
    · rfl
    · split <;> rfl
  have hrun : Linked.append h p r a = some h₃ := by
    have hp₁ : h₁.lookup p = some c := by rw [lookup_insert_eq, if_neg (hnew p hpl), hc]
    have hr₂ : h₂.lookup r = some ⟨a, none, none⟩ := by
      rw [lookup_insert_eq, if_neg (hnew p hpl).symm, lookup_insert_eq, if_pos rfl]
    show (setNext h₁ p (some r) >>= _) = _
    rw [setNext_eq hp₁]
    exact setPrev_eq hr₂ _
  refine ⟨h₃, hrun, hsplice h₃ (some r) [(r, a)] (some r) ?_ ?_ ⟨rfl, none, ?_, rfl, rfl⟩ ?_⟩
  · rw [hlook, if_neg (hnew p hpl), if_pos rfl]
  · intro x hx hxp
    rw [hlook, if_neg (hnew x hx), if_neg hxp]
  · rw [hlook, if_pos rfl]
  · have hperm : (s :: (l ++ [(r, a)]).map Prod.fst).Perm (r :: s :: l.map Prod.fst) := by
      simp only [List.map_append, List.map_cons, List.map_nil]
      exact List.perm_append_singleton r (s :: l.map Prod.fst)
    exact hperm.nodup_iff.2 (List.nodup_cons.2 ⟨fun hmem => hr (hd.mem hmem), hd.nodup⟩)

theorem DList.unlink (hd : DList h s (l₁ ++ (q, b) :: l₂)) :
    ∃ h', unlink h q = some h' ∧ DList h' s (l₁ ++ l₂) := by
  obtain ⟨p, c, p', hlast, hp, ⟨hcq, n, hq, hright⟩, hsplice⟩ := hd.splice
  have hpl := List.mem_of_getLast? hlast
  have hn : ((s :: l₁.map Prod.fst) ++ q :: l₂.map Prod.fst).Nodup := by simpa using hd.nodup
  obtain ⟨hnl, hnr, hapart⟩ := List.nodup_append.1 hn
  have hqp : q ≠ p := (hapart p hpl q List.mem_cons_self).symm
  have hn' : (s :: (l₁ ++ l₂).map Prod.fst).Nodup := by
    apply List.Nodup.sublist _ hd.nodup
    simp
  let h₁ := h.insert p { c with next := n }
  have hq₁ : h₁.lookup q = some ⟨b, some p, n⟩ := by rw [lookup_insert_eq, if_neg hqp, hq]
  have hstart : Linked.unlink h q = setPrevIf h₁ n (some p) >>= fun h => some (h.erase q) := by
    unfold Linked.unlink
    rw [hq]
    show (setNext h p n >>= _) = _
    rw [setNext_eq hp]
    show (h₁.lookup q >>= _) = _
    rw [hq₁]
    rfl
  cases l₂ with
  | nil =>
    obtain ⟨_, rfl⟩ := hright
    have hlook : ∀ x, x ≠ q → (h₁.erase q).lookup x = if x = p then some { c with next := none }
        else h.lookup x := by
      intro x hx
      rw [AList.lookup_erase_ne hx, lookup_insert_eq]
    refine ⟨_, hstart, hsplice _ none [] (some p) ?_ ?_ ⟨rfl, rfl⟩ hn'⟩
    · rw [hlook p hqp.symm, if_pos rfl]
    · intro x hx hxp
      rw [hlook x (hapart x hx q List.mem_cons_self), if_neg hxp]
  | cons y l₂ =>
    obtain ⟨t, d⟩ := y
    obtain ⟨rfl, k, ht, hright⟩ := hright
    have htq : t ≠ q := by
      rintro rfl
      exact (List.nodup_cons.1 hnr).1 List.mem_cons_self
    have htp : t ≠ p := (hapart p hpl t (by simp)).symm
    let h₂ := h₁.insert t ⟨d, some p, k⟩
    have hrun : Linked.unlink h q = some (h₂.erase q) := by
      rw [hstart]
      show (setPrev h₁ t (some p) >>= _) = _
      rw [setPrev_eq (by rw [lookup_insert_eq, if_neg htp, ht])]
      rfl
    have hlook : ∀ x, x ≠ q → (h₂.erase q).lookup x = if x = t then some ⟨d, some p, k⟩
        else if x = p then some { c with next := some t } else h.lookup x := by
      intro x hx
      rw [AList.lookup_erase_ne hx, lookup_insert_eq, lookup_insert_eq]
    refine ⟨_, hrun, hsplice _ (some t) _ p' ?_ ?_ ⟨rfl, k, ?_, hright.frame ?_⟩ hn'⟩
    · rw [hlook p hqp.symm, if_neg htp.symm, if_pos rfl]
    · intro x hx hxp
      rw [hlook x (hapart x hx q List.mem_cons_self), if_neg (hapart x hx t (by simp)), if_neg hxp]
    · rw [hlook t htq, if_pos rfl]
    · intro x hx
      have hx' : x.1 ∈ l₂.map Prod.fst := List.mem_map_of_mem hx
      have hnr' := List.nodup_cons.1 hnr
      have hxq : x.1 ≠ q := by
        intro hxq
        exact hnr'.1 (List.mem_cons_of_mem _ (hxq ▸ hx'))
      have hxt : x.1 ≠ t := by
        intro hxt
        exact (List.nodup_cons.1 hnr'.2).1 (hxt ▸ hx')
      have hxp : x.1 ≠ p := (hapart p hpl x.1 (List.mem_cons_of_mem _ (List.mem_cons_of_mem _ hx'))).symm
      rw [hlook x.1 hxq, if_neg hxt, if_neg hxp]

end

end Linked
