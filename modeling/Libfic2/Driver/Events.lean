import Mathlib.Logic.Relation

/-!
# Systems driven by events

`next s e` is the state after event `e`, or `none` when `e` cannot happen in `s`.  `Reaches next C`
leads along events that meet `C`, a condition on the state before and the event.  `replay` runs a
list of events, and `Reaches.inv` carries an invariant along.
-/

namespace Driver

variable {σ ε : Type} (next : σ → ε → Option σ) (C : σ → ε → Prop)

/-- One event that meets `C`. -/
def Fires (s s' : σ) : Prop := ∃ e, C s e ∧ next s e = some s'

/-- Any sequence of such events. -/
def Reaches : σ → σ → Prop := Relation.ReflTransGen (Fires next C)

/-- The state after a list of events, when each can happen and meets `C`. -/
def replay [∀ s e, Decidable (C s e)] : List ε → σ → Option σ
  | [], s => some s
  | e :: es, s => if C s e then (next s e).bind (replay es) else none

variable {next C} {s s' : σ}

theorem replay_reaches [∀ s e, Decidable (C s e)] {es : List ε} (h : replay next C es s = some s') :
    Reaches next C s s' := by
  induction es generalizing s with
  | nil =>
    obtain rfl : s = s' := Option.some.inj h
    exact .refl
  | cons e es ih =>
    unfold replay at h
    split at h
    · next hC =>
      obtain ⟨t, ht, h⟩ := Option.bind_eq_some_iff.1 h
      exact .head ⟨e, hC, ht⟩ (ih h)
    · cases h

/-- What every event keeps holds in every state reached. -/
theorem Reaches.inv {I : σ → Prop} (hr : Reaches next C s s')
    (hI : ∀ t e t', I t → C t e → next t e = some t' → I t') (h : I s) : I s' := by
  induction hr with
  | refl => exact h
  | tail _ hstep ih =>
    obtain ⟨e, hC, he⟩ := hstep
    exact hI _ e _ ih hC he

end Driver
