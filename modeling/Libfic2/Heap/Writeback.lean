import Mathlib.Logic.Function.Basic

/-!
# A write-back cache

A `Cache` holds cells of a store.  A write goes to the cache and makes the cell dirty; from then on the
cell may be flushed at any time, and only a clean cell may be fetched again.  The store may change by
itself, and a flush that fails leaves the cell clean all the same.

`c.Holds a v`: whatever is flushed and fetched, the cell `a` reads `v`.  `Holds.run` keeps that over
events which leave the cell, and `run_flush` says what flushes make of the store.
-/

namespace Writeback

structure Cache (α β : Type) where
  cached : α → β
  dirty : α → Bool
  store : α → β

inductive Event (α β : Type)
  | write (a : α) (v : β)
  | flush (a : α)
  | fetch (a : α)
  -- a flush that fails
  | lose (a : α)
  -- the store changes
  | outside (a : α) (v : β)

variable {α β : Type} [DecidableEq α]

def Cache.next (c : Cache α β) : Event α β → Cache α β
  | .write a v => { c with cached := Function.update c.cached a v, dirty := Function.update c.dirty a true }
  | .flush a =>
      { c with dirty := Function.update c.dirty a false, store := Function.update c.store a (c.cached a) }
  | .fetch a => { c with cached := Function.update c.cached a (c.store a) }
  | .lose a => { c with dirty := Function.update c.dirty a false }
  | .outside a v => { c with store := Function.update c.store a v }

def Cache.run (c : Cache α β) (es : List (Event α β)) : Cache α β := es.foldl Cache.next c

omit [DecidableEq α] in
/-- Only a clean cell is fetched. -/
def Event.Allowed (c : Cache α β) : Event α β → Prop
  | .fetch a => c.dirty a = false
  | _ => True

omit [DecidableEq α] in
/-- What neither writes the cell `a` nor loses it nor changes it in the store. -/
def Event.Leaves (a : α) : Event α β → Prop
  | .write a' _ => a' ≠ a
  | .lose a' => a' ≠ a
  | .outside a' _ => a' ≠ a
  | _ => True

/-- The cell reads `v` and, if clean, does so after a fetch. -/
structure Cache.Holds (c : Cache α β) (a : α) (v : β) : Prop where
  cached : c.cached a = v
  clean : c.dirty a = false → c.store a = v

variable {c : Cache α β} {a : α} {v : β}

@[simp] theorem run_nil : c.run [] = c := rfl
@[simp] theorem run_cons (e : Event α β) (es : List (Event α β)) :
    c.run (e :: es) = (c.next e).run es := rfl

theorem run_append (es es' : List (Event α β)) : c.run (es ++ es') = (c.run es).run es' := List.foldl_append

theorem holds_write (c : Cache α β) (a : α) (v : β) : (c.next (.write a v)).Holds a v := by
  constructor
  · simp [Cache.next]
  · intro hclean
    simp [Cache.next] at hclean

/-- One event. -/
theorem Cache.Holds.next (h : c.Holds a v) {e : Event α β} (hok : e.Allowed c) (hleaves : e.Leaves a) :
    (c.next e).Holds a v := by
  obtain ⟨hcached, hclean⟩ := h
  cases e with
  | write a' w =>
    have hne : a ≠ a' := Ne.symm hleaves
    constructor <;> simpa [Cache.next, hne]
  | flush a' =>
    by_cases heq : a = a'
    · subst heq
      constructor <;> simpa [Cache.next]
    · constructor <;> simpa [Cache.next, heq]
  | fetch a' =>
    by_cases heq : a = a'
    · subst heq
      have hstore := hclean hok
      constructor <;> simpa [Cache.next]
    · constructor <;> simpa [Cache.next, heq]
  | lose a' =>
    have hne : a ≠ a' := Ne.symm hleaves
    constructor <;> simpa [Cache.next, hne]
  | outside a' w =>
    have hne : a ≠ a' := Ne.symm hleaves
    constructor <;> simpa [Cache.next, hne]

omit [DecidableEq α] in
/-- What a program does to its pages by itself: it writes and flushes. -/
def Event.Own : Event α β → Prop
  | .write _ _ => True
  | .flush _ => True
  | _ => False

theorem Cache.Holds.run (h : c.Holds a v) {es : List (Event α β)}
    (hown : ∀ e ∈ es, e.Own ∧ e.Leaves a) : (c.run es).Holds a v := by
  induction es generalizing c with
  | nil => exact h
  | cons e es ih =>
    obtain ⟨hown', hleaves⟩ := hown e List.mem_cons_self
    have hok : e.Allowed c := by
      cases e with
      | fetch a' => exact hown'.elim
      | _ => trivial
    exact ih (h.next hok hleaves) fun e' he' => hown e' (List.mem_cons_of_mem _ he')

/-- Writes that say the same of a cell, one at least. -/
theorem run_write {es : List (Event α β)} (hmem : .write a v ∈ es)
    (hes : ∀ e ∈ es, ∃ a' w, e = .write a' w ∧ (a' = a → w = v)) : (c.run es).Holds a v := by
  induction es generalizing c with
  | nil => cases hmem
  | cons e es ih =>
    have hrest := fun e' he' => hes e' (List.mem_cons_of_mem _ he')
    by_cases hlater : .write a v ∈ es
    · exact ih hlater hrest
    · obtain rfl : .write a v = e := by
        rcases List.mem_cons.1 hmem with heq | hin
        · exact heq
        · exact absurd hin hlater
      refine (holds_write c a v).run fun e' he' => ?_
      obtain ⟨a', w, rfl, hw⟩ := hrest e' he'
      refine ⟨trivial, fun heq => ?_⟩
      obtain rfl := hw heq
      exact hlater (heq ▸ he')

/-- What has been flushed is in the store, and flushes change nothing else. -/
theorem run_flush {es : List (Event α β)} (hes : ∀ e ∈ es, ∃ a', e = .flush a') :
    (c.run es).cached = c.cached ∧ (.flush a ∈ es → (c.run es).store a = c.cached a) ∧
      (.flush a ∉ es → (c.run es).store a = c.store a) := by
  induction es generalizing c with
  | nil => exact ⟨rfl, fun h => absurd h List.not_mem_nil, fun _ => rfl⟩
  | cons e es ih =>
    obtain ⟨a', rfl⟩ := hes e List.mem_cons_self
    obtain ⟨hcached, hin, hout⟩ :=
      ih (c := c.next (.flush a')) fun e' he' => hes e' (List.mem_cons_of_mem _ he')
    refine ⟨hcached, fun hmem => ?_, fun hmem => ?_⟩
    · by_cases hlater : .flush a ∈ es
      · exact hin hlater
      · obtain heq | hmem := List.mem_cons.1 hmem
        · obtain rfl : a = a' := Event.flush.inj heq
          exact (hout hlater).trans (Function.update_self ..)
        · exact absurd hmem hlater
    · rw [List.mem_cons, not_or] at hmem
      have hne : a ≠ a' := fun heq => hmem.1 (congrArg _ heq)
      exact (hout hmem.2).trans (Function.update_of_ne hne ..)

end Writeback
