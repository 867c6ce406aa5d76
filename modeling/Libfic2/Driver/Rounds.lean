import Libfic2.Driver.Traces

/-!
# Loops and the ends of their rounds

`whileDo going round n x` is a loop with loop variables `x : X`, of which a round makes new
ones or jumps out (`none`).  `AfterRounds S going round (x, s) (y, t)`: some number of whole
rounds leads from `(x, s)` to `(y, t)`.

* `AfterRounds.reached`: these are moments of the loop's runs.
* `whileDo_run`: every other moment lies inside a round that begins at one of them.
-/

namespace Driver

open Prog Sys

variable {Op : Type} {Ans : Op → Type} {α X σ : Type}

/-- `while (going(x)) round(x);` for at most `n` rounds; answers the loop variables at the end. -/
def Prog.whileDo (going : X → Bool) (round : X → Prog Op Ans (Option X)) : Nat → X → Prog Op Ans (Option X)
  | 0, _ => hang
  | n + 1, x =>
    if going x then round x >>= fun r => r.elim (ret none) (whileDo going round n) else ret (some x)

theorem ops_whileDo {P : Op → Prop} {going : X → Bool} {round : X → Prog Op Ans (Option X)}
    (h : ∀ x, Ops P (round x)) (n : Nat) (x : X) : Ops P (whileDo going round n x) := by
  induction n generalizing x with
  | zero => trivial
  | succ n ih =>
    unfold whileDo
    split
    · refine ops_bind (h x) fun r => ?_
      cases r with
      | none => trivial
      | some y => exact ih y
    · trivial

/-- A loop that comes to its end has no round left to do. -/
theorem ends_whileDo {going : X → Bool} {round : X → Prog Op Ans (Option X)} {n : Nat} {x y : X}
    {l : List (Event Op Ans)} (h : Ends (whileDo going round n x) l (some y)) : going y = false := by
  induction n generalizing x l with
  | zero => exact h.elim
  | succ n ih =>
    unfold whileDo at h
    split at h
    · obtain ⟨r, l1, l2, -, -, hrest⟩ := ends_bind.1 h
      cases r with
      | none => cases hrest.2
      | some z => exact ih hrest
    · next hgo =>
      obtain ⟨-, heq⟩ := h
      cases heq
      exact Bool.not_eq_true _ ▸ hgo

/-- One whole round. -/
def OneRound (S : Sys Op Ans σ) (going : X → Bool) (round : X → Prog Op Ans (Option X))
    (c c' : X × σ) : Prop :=
  going c.1 = true ∧ S.Run (round c.1, c.2) (ret (some c'.1), c'.2)

/-- Any number of them. -/
def AfterRounds (S : Sys Op Ans σ) (going : X → Bool) (round : X → Prog Op Ans (Option X)) :
    X × σ → X × σ → Prop :=
  Relation.ReflTransGen (OneRound S going round)

variable {S : Sys Op Ans σ} {going : X → Bool} {round : X → Prog Op Ans (Option X)} {x y : X} {s t : σ}

theorem whileDo_round {n : Nat} (h : OneRound S going round (x, s) (y, t)) :
    S.Run (whileDo going round (n + 1) x, s) (whileDo going round n y, t) := by
  rw [whileDo, if_pos h.1]
  exact run_bind (fun r => r.elim (ret none) (whileDo going round n)) h.2

/-- The end of a round is a moment of the loop that has rounds enough for the measure `μ`. -/
theorem AfterRounds.reached {μ : X → Nat} (h : AfterRounds S going round (x, s) (y, t))
    (hμ : ∀ x s y t, OneRound S going round (x, s) (y, t) → μ y < μ x) {n : Nat} (hn : μ x ≤ n) :
    ∃ k, μ y ≤ k ∧ S.Run (whileDo going round n x, s) (whileDo going round k y, t) := by
  have key : ∀ c, AfterRounds S going round (x, s) c →
      ∃ k, μ c.1 ≤ k ∧ S.Run (whileDo going round n x, s) (whileDo going round k c.1, c.2) := by
    intro c hc
    induction hc with
    | refl => exact ⟨n, hn, .refl⟩
    | tail _ hstep ih =>
      obtain ⟨k, hk, hrun⟩ := ih
      have hless := hμ _ _ _ _ hstep
      obtain ⟨j, rfl⟩ : ∃ j, k = j + 1 := ⟨k - 1, by omega⟩
      exact ⟨j, by omega, hrun.trans (whileDo_round hstep)⟩
  exact key (y, t) h

/-- What one round keeps holds at the end of every round. -/
theorem AfterRounds.inv {I : X → σ → Prop} (h : AfterRounds S going round (x, s) (y, t)) (hx : I x s)
    (hI : ∀ x s y t, I x s → OneRound S going round (x, s) (y, t) → I y t) : I y t := by
  have key : ∀ c, AfterRounds S going round (x, s) c → I c.1 c.2 := by
    intro c hc
    induction hc with
    | refl => exact hx
    | tail _ hstep ih => exact hI _ _ _ _ ih hstep
  exact key (y, t) h

/-- The loop moment by moment: `J` has to hold at the ends of the rounds and inside them. -/
theorem whileDo_run {J : σ → Prop} {n : Nat}
    (hends : ∀ y t u, AfterRounds S going round (x, s) (y, t) → S.Drift t u → J u)
    (hround : ∀ y t, AfterRounds S going round (x, s) (y, t) → going y = true →
      ∀ q u, S.Run (round y, t) (q, u) → J u) :
    wp S J (fun r u => ∀ y, r = some y → ∃ t, AfterRounds S going round (x, s) (y, t) ∧
      going y = false ∧ S.Drift t u)
      (whileDo going round n x) s := by
  suffices hmain : ∀ n y t, AfterRounds S going round (x, s) (y, t) → wp S J (fun r u => ∀ y, r = some y →
      ∃ t, AfterRounds S going round (x, s) (y, t) ∧ going y = false ∧ S.Drift t u)
      (whileDo going round n y) t from
    hmain n x s .refl
  intro n
  induction n with
  | zero => exact fun y t h u hu => hends y t u h hu
  | succ n ih =>
    intro y t h
    rw [whileDo]
    by_cases hy : going y = true
    · rw [if_pos hy]
      refine wp_bind (wp_of_runs (fun q u hu => hround y t h hy q u hu) fun r u hu => ?_)
      cases r with
      | none =>
        intro v hv
        exact ⟨hround y t h hy _ v (hu.trans (run_drift _ hv)), fun z hz => nomatch hz⟩
      | some z => exact ih z u (h.tail ⟨hy, hu⟩)
    · rw [if_neg hy]
      intro u hu
      refine ⟨hends y t u h hu, ?_⟩
      rintro z ⟨rfl⟩
      exact ⟨t, h, Bool.not_eq_true _ ▸ hy, hu⟩

end Driver
