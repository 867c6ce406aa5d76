import Libfic2.Driver.Wp

/-!
# Traces of driver programs

A trace lists the operations of a run with their answers.  `Ends p l a`: answered as in
`l`, `p` returns `a` after exactly these operations.  `ends_bind` cuts the trace of a
sequence in two, and `run_ends` gives every run that returns its trace.  `monitor next` watches the
events of all runs.
-/

namespace Driver

open Prog Sys

variable {Op : Type} {Ans : Op → Type} {α β σ : Type}

/-- An operation and its answer. -/
abbrev Event (Op : Type) (Ans : Op → Type) := Σ o : Op, Ans o

def Ends : Prog Op Ans α → List (Event Op Ans) → α → Prop
  | ret a, l, b => l = [] ∧ b = a
  | op o k, l, b => ∃ a l', l = ⟨o, a⟩ :: l' ∧ Ends (k a) l' b
  | hang, _, _ => False

variable {p : Prog Op Ans α} {l : List (Event Op Ans)} {a : α}

theorem ends_bind {f : α → Prog Op Ans β} {b : β} :
    Ends (p >>= f) l b ↔ ∃ a l1 l2, l = l1 ++ l2 ∧ Ends p l1 a ∧ Ends (f a) l2 b := by
  constructor
  · intro h
    induction p generalizing l with
    | ret a => exact ⟨a, [], l, rfl, ⟨rfl, rfl⟩, h⟩
    | op o k ih =>
      obtain ⟨c, l', rfl, h'⟩ := h
      obtain ⟨a, l1, l2, rfl, h1, h2⟩ := ih c h'
      exact ⟨a, ⟨o, c⟩ :: l1, l2, rfl, ⟨c, l1, rfl, h1⟩, h2⟩
    | hang => exact h.elim
  · rintro ⟨a, l1, l2, rfl, h1, h2⟩
    induction p generalizing l1 with
    | ret a' =>
      obtain ⟨rfl, rfl⟩ := h1
      exact h2
    | op o k ih =>
      obtain ⟨c, l', rfl, h'⟩ := h1
      exact ⟨c, l' ++ l2, rfl, ih c l' h'⟩
    | hang => exact h1.elim

theorem ends_callBind {o : Op} {f : Ans o → Prog Op Ans β} {b : β} :
    Ends (call o >>= f) l b ↔ ∃ a l', l = ⟨o, a⟩ :: l' ∧ Ends (f a) l' b := Iff.rfl

/-- A step that may fail: it has, or it has not and the rest follows. -/
theorem ends_checkOr {e : α} {q : Prog Op Ans Int} {k : Prog Op Ans α} (h : Ends (checkOr e q k) l a) :
    (a = e ∧ ∃ r, r < 0 ∧ Ends q l r) ∨ ∃ r l1 l2, l = l1 ++ l2 ∧ 0 ≤ r ∧ Ends q l1 r ∧ Ends k l2 a := by
  obtain ⟨r, l1, l2, rfl, h1, h2⟩ := ends_bind.1 h
  by_cases hr : r < 0
  · rw [if_pos hr] at h2
    obtain ⟨rfl, rfl⟩ := h2
    exact .inl ⟨rfl, r, hr, by rwa [List.append_nil]⟩
  · rw [if_neg hr] at h2
    exact .inr ⟨r, l1, l2, rfl, Int.not_lt.1 hr, h1, h2⟩

theorem ends_check {q k : Prog Op Ans Int} {a : Int} (h : Ends (check q k) l a) (ha : 0 ≤ a) :
    ∃ r l1 l2, l = l1 ++ l2 ∧ 0 ≤ r ∧ Ends q l1 r ∧ Ends k l2 a := by
  rcases ends_checkOr h with ⟨rfl, -⟩ | h
  · exact absurd ha (by decide)
  · exact h

/-- One answer or another, and nothing before it. -/
theorem ends_answers {c : Prop} [Decidable c] {b d : α}
    (h : Ends (if c then ret b else ret d : Prog Op Ans α) l a) : l = [] := by
  split at h
  · exact h.1
  · exact h.1

/-- A loop that has stopped stopped in its last round. -/
theorem ends_loop {body : Prog Op Ans (Option α)} {n : Nat} (h : Ends (loop body n) l a) :
    ∃ l1 l2, l = l1 ++ l2 ∧ Ends body l2 (some a) := by
  induction n generalizing l with
  | zero => exact h.elim
  | succ n ih =>
    obtain ⟨r, l1, l2, rfl, h1, h2⟩ := ends_bind.1 h
    cases r with
    | none =>
      obtain ⟨l3, l4, rfl, h4⟩ := ih h2
      exact ⟨l1 ++ l3, l4, (List.append_assoc ..).symm, h4⟩
    | some c =>
      obtain ⟨rfl, rfl⟩ := h2
      exact ⟨[], l1, List.append_nil .., h1⟩

/-- The last step of a sequence gives the answer. -/
theorem ends_last {f : α → Prog Op Ans β} {R : β → Prop} {c : β} (h : Ends (p >>= f) l c)
    (hf : ∀ a l, Ends (f a) l c → R c) : R c := by
  obtain ⟨a, l1, l2, -, -, h2⟩ := ends_bind.1 h
  exact hf a l2 h2

/-- Where a program ends in a list of events is determined by the list. -/
theorem ends_cancel {l' m m' : List (Event Op Ans)} {b : α} (h : Ends p l a) (h' : Ends p l' b)
    (heq : l ++ m = l' ++ m') : l = l' ∧ m = m' ∧ a = b := by
  induction p generalizing l l' with
  | ret c =>
    obtain ⟨rfl, rfl⟩ := h
    obtain ⟨rfl, rfl⟩ := h'
    exact ⟨rfl, heq, rfl⟩
  | op o k ih =>
    obtain ⟨c, l1, rfl, h1⟩ := h
    obtain ⟨c', l1', rfl, h1'⟩ := h'
    obtain ⟨hhead, htail⟩ := List.cons.inj heq
    obtain rfl : c = c' := by simpa using hhead
    obtain ⟨rfl, rfl, rfl⟩ := ih c h1 h1' htail
    exact ⟨rfl, rfl, rfl⟩
  | hang => exact h.elim

theorem ends_unique {b : α} (h : Ends p l a) (h' : Ends p l b) : a = b :=
  (ends_cancel h h' (rfl : l ++ [] = l ++ [])).2.2

/-- The trace in which `f` chooses the answers. -/
def Prog.trace (f : (o : Op) → σ → Ans o × σ) : (n : Nat) → Prog Op Ans α → σ → List (Event Op Ans)
  | n + 1, op o k, s => ⟨o, (f o s).1⟩ :: trace f n (k (f o s).1) (f o s).2
  | _, _, _ => []

theorem trace_ends {f : (o : Op) → σ → Ans o × σ} {n : Nat} {s : σ}
    (h : (follow f n p s).1.answer? = some a) : Ends p (p.trace f n s) a := by
  induction n generalizing p s with
  | zero =>
    have hp : p = ret a := eq_ret_of_answer? h
    rw [hp]
    exact ⟨rfl, rfl⟩
  | succ n ih =>
    cases p with
    | ret b => exact ⟨rfl, (Option.some.inj h).symm⟩
    | op o k => exact ⟨_, _, rfl, ih h⟩
    | hang => cases h

/-! ## Programs whose operations answer alike -/

section
variable {Op' A : Type}

/-- A program among more operations. -/
def Prog.embed (f : Op → Op') : Prog Op (fun _ => A) α → Prog Op' (fun _ => A) α
  | ret a => ret a
  | op o k => op (f o) fun a => (k a).embed f
  | hang => hang

theorem ends_embed {f : Op → Op'} {p : Prog Op (fun _ => A) α} {l : List (Event Op' fun _ => A)} :
    Ends (p.embed f) l a ↔ ∃ l', l = l'.map (fun e => ⟨f e.1, e.2⟩) ∧ Ends p l' a := by
  constructor
  · intro h
    induction p generalizing l with
    | ret b =>
      obtain ⟨rfl, rfl⟩ := h
      exact ⟨[], rfl, rfl, rfl⟩
    | op o k ih =>
      obtain ⟨c, l', rfl, h'⟩ := h
      obtain ⟨l'', rfl, h''⟩ := ih c h'
      exact ⟨⟨o, c⟩ :: l'', rfl, c, l'', rfl, h''⟩
    | hang => exact h.elim
  · rintro ⟨l', rfl, h⟩
    induction p generalizing l' with
    | ret b =>
      obtain ⟨rfl, rfl⟩ := h
      exact ⟨rfl, rfl⟩
    | op o k ih =>
      obtain ⟨c, l'', rfl, h'⟩ := h
      exact ⟨c, _, rfl, ih c l'' h'⟩
    | hang => exact h.elim

/-- The trace and the result when the answers are `as`. -/
def Prog.play : Prog Op (fun _ => A) α → List A → Option (List (Event Op fun _ => A) × α)
  | ret a, [] => some ([], a)
  | op o k, c :: as => ((k c).play as).map fun r => (⟨o, c⟩ :: r.1, r.2)
  | _, _ => none

theorem play_ends {p : Prog Op (fun _ => A) α} {as : List A} {l : List (Event Op fun _ => A)}
    (h : p.play as = some (l, a)) : Ends p l a := by
  induction as generalizing p l with
  | nil =>
    cases p with
    | ret b =>
      obtain ⟨rfl, rfl⟩ := Prod.mk.inj (Option.some.inj h)
      exact ⟨rfl, rfl⟩
    | op o k => cases h
    | hang => cases h
  | cons c as ih =>
    cases p with
    | ret b => cases h
    | op o k =>
      obtain ⟨⟨l', b⟩, hr, heq⟩ := Option.map_eq_some_iff.1 h
      obtain ⟨rfl, rfl⟩ := Prod.mk.inj heq
      exact ⟨c, l', rfl, ih hr⟩
    | hang => cases h

end

/-! ## Monitors -/

/-- Any operation may answer anything; the state is what a monitor has made of the events so far. -/
def monitor (next : σ → Event Op Ans → σ) : Sys Op Ans σ where
  act o s a s' := s' = next s ⟨o, a⟩
  env _ _ := False

section
variable {next : σ → Event Op Ans → σ} {J : σ → Prop} {Q : α → σ → Prop} {s : σ}

theorem monitor_quiet : (monitor next).Quiet := fun _ _ h => h

theorem wp_monitorRet (hJ : J s) (h : Q a s) : wp (monitor next) J Q (ret a) s :=
  wp_retQuiet monitor_quiet hJ h

theorem wp_monitorCall {o : Op} {k : Ans o → Prog Op Ans α} (hJ : J s)
    (h : ∀ a, wp (monitor next) J Q (k a) (next s ⟨o, a⟩)) : wp (monitor next) J Q (call o >>= k) s :=
  wp_callQuiet monitor_quiet hJ fun a t (ht : t = _) => by rw [ht]; exact h a

end

/-! ## Runs and their traces -/

/-- A run that returns has a trace, and what the operations do to a part `π` of the state, which
the other side leaves alone, follows from it. -/
theorem run_ends {S : Sys Op Ans σ} {X : Type} (π : σ → X) (eff : Op → X → X) {s s' : σ}
    (hact : ∀ o t b t', S.act o t b t' → π t' = eff o (π t)) (henv : ∀ t t', S.env t t' → π t' = π t)
    (hr : S.Run (p, s) (ret a, s')) : ∃ l, Ends p l a ∧ π s' = l.foldl (fun x e => eff e.1 x) (π s) := by
  have key : ∀ c : Prog Op Ans α × σ, S.Run c (ret a, s') →
      ∃ l, Ends c.1 l a ∧ π s' = l.foldl (fun x e => eff e.1 x) (π c.2) := by
    intro c hc
    induction hc using Relation.ReflTransGen.head_induction_on with
    | refl => exact ⟨[], ⟨rfl, rfl⟩, rfl⟩
    | head hstep _ ih =>
      obtain ⟨l, hl, hπ⟩ := ih
      cases hstep with
      | act ha => exact ⟨⟨_, _⟩ :: l, ⟨_, l, rfl, hl⟩, by rw [hπ, hact _ _ _ _ ha]; rfl⟩
      | env he => exact ⟨l, hl, by rw [hπ, henv _ _ he]⟩
  exact key (p, s) hr

end Driver
