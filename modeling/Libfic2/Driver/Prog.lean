import Mathlib.Logic.Relation

/-!
# Driver programs and their runs

A driver talks to a device through operations `o : Op`, each answered by a value
of `Ans o`.  `Prog Op Ans α` is such a program: it returns (`ret`), issues an
operation and goes on with the answer (`op`), or is still inside a loop when the
rounds it was given are used up (`hang`).

`Sys Op Ans σ` says what an operation may answer and do to the state (`act`)
and what the other side does on its own (`env`).  `Run S (p, s) (p', s')`: some
interleaving of the program's operations and the other side's steps leads from
`(p, s)` to `(p', s')`; a run may stop anywhere, so what holds at the end of
every run holds at every moment.
-/

namespace Driver

/-- A program over operations `Op`, the answer to `o` being of type `Ans o`. -/
inductive Prog (Op : Type) (Ans : Op → Type) (α : Type) : Type
  | ret (a : α)
  | op (o : Op) (k : Ans o → Prog Op Ans α)
  | hang

variable {Op : Type} {Ans : Op → Type} {α β σ : Type}

namespace Prog

protected def bind : Prog Op Ans α → (α → Prog Op Ans β) → Prog Op Ans β
  | ret a, f => f a
  | op o k, f => op o fun a => (k a).bind f
  | hang, _ => hang

instance : Monad (Prog Op Ans) where
  pure := ret
  bind := Prog.bind

@[simp] theorem pure_eq (a : α) : (pure a : Prog Op Ans α) = ret a := rfl
@[simp] theorem ret_bind (a : α) (f : α → Prog Op Ans β) : (ret a : Prog Op Ans α) >>= f = f a := rfl
@[simp] theorem op_bind (o : Op) (k : Ans o → Prog Op Ans α) (f : α → Prog Op Ans β) :
    (op o k >>= f) = op o fun a => k a >>= f := rfl
@[simp] theorem hang_bind (f : α → Prog Op Ans β) : ((hang : Prog Op Ans α) >>= f) = hang := rfl

/-- Issue one operation and return its answer. -/
def call (o : Op) : Prog Op Ans (Ans o) := op o ret

@[simp] theorem call_bind (o : Op) (f : Ans o → Prog Op Ans β) : (call o >>= f) = op o f := rfl

/-- `if (p < 0) return e;` before `k`. -/
def checkOr (e : α) (p : Prog Op Ans Int) (k : Prog Op Ans α) : Prog Op Ans α :=
  p >>= fun r => if r < 0 then ret e else k

/-- `if (p < 0) return -1;` before `k`. -/
def check (p k : Prog Op Ans Int) : Prog Op Ans Int := checkOr (-1) p k

theorem bind_assoc {γ : Type} (p : Prog Op Ans α) (f : α → Prog Op Ans β) (g : β → Prog Op Ans γ) :
    p >>= f >>= g = p >>= fun a => f a >>= g := by
  induction p with
  | ret a => rfl
  | op o k ih => exact congrArg (op o) (funext fun a => ih a)
  | hang => rfl

/-- A failed step ends what stands before the next one. -/
theorem checkOr_bind (e : α) (p : Prog Op Ans Int) (k : Prog Op Ans α) (f : α → Prog Op Ans β) :
    checkOr e p k >>= f = p >>= fun r => if r < 0 then f e else k >>= f := by
  unfold checkOr
  rw [bind_assoc]
  refine congrArg (p >>= ·) (funext fun r => ?_)
  split <;> rfl

/-- A failed step of a part is a failed step of the whole. -/
theorem checkOr_check (e : α) (p q : Prog Op Ans Int) (k : Prog Op Ans α) :
    checkOr e (check p q) k = checkOr e p (checkOr e q k) :=
  checkOr_bind (-1) p q fun r => if r < 0 then ret e else k

theorem check_check (p q k : Prog Op Ans Int) : check (check p q) k = check p (check q k) :=
  checkOr_check (-1) p q k

theorem check_bind (p : Prog Op Ans α) (f : α → Prog Op Ans Int) (k : Prog Op Ans Int) :
    check (p >>= f) k = p >>= fun a => check (f a) k :=
  bind_assoc p f _

/-- Repeat `body` until it answers `some b`, for at most `n` rounds. -/
def loop (body : Prog Op Ans (Option β)) : Nat → Prog Op Ans β
  | 0 => hang
  | n + 1 => body >>= fun
    | none => loop body n
    | some b => ret b

/-- `for (i = lo; i < lo + n; i++) body(i);` -/
def forDo (body : Nat → Prog Op Ans Unit) : (lo n : Nat) → Prog Op Ans Unit
  | _, 0 => ret ()
  | lo, n + 1 => body lo >>= fun _ => forDo body (lo + 1) n

/-- `if (c) p;` -/
def when (c : Bool) (p : Prog Op Ans Unit) : Prog Op Ans Unit := if c then p else ret ()

/-- `for (i = lo; i < lo + n; i++) if (body(i) < 0) return -1;` and `return 0;` -/
def forEach (body : Nat → Prog Op Ans Int) : (lo n : Nat) → Prog Op Ans Int
  | _, 0 => ret 0
  | lo, n + 1 => check (body lo) (forEach body (lo + 1) n)

end Prog

/-! ## Systems and runs -/

/-- What the operations of a program do, and what the other side does by itself. -/
structure Sys (Op : Type) (Ans : Op → Type) (σ : Type) where
  act : (o : Op) → σ → Ans o → σ → Prop
  env : σ → σ → Prop

namespace Sys

variable (S : Sys Op Ans σ)

/-- Any number of steps of the other side. -/
def Drift : σ → σ → Prop := Relation.ReflTransGen S.env

/-- One atomic step: the program's next operation, or a step of the other side. -/
inductive Step : Prog Op Ans α × σ → Prog Op Ans α × σ → Prop
  | act {o : Op} {k : Ans o → Prog Op Ans α} {s s' : σ} {a : Ans o} :
      S.act o s a s' → Step (.op o k, s) (k a, s')
  | env {p : Prog Op Ans α} {s s' : σ} : S.env s s' → Step (p, s) (p, s')

/-- Any interleaving of steps. -/
def Run : Prog Op Ans α × σ → Prog Op Ans α × σ → Prop := Relation.ReflTransGen S.Step

/-- The other side never moves by itself. -/
def Quiet : Prop := ∀ s s', ¬ S.env s s'

variable {S}

theorem Quiet.drift (hq : S.Quiet) {s s' : σ} (h : S.Drift s s') : s' = s := by
  induction h with
  | refl => rfl
  | tail _ hb _ => exact absurd hb (hq _ _)

theorem run_drift (p : Prog Op Ans α) {s s' : σ} (h : S.Drift s s') : S.Run (p, s) (p, s') := by
  induction h with
  | refl => exact .refl
  | tail _ hb ih => exact ih.tail (.env hb)

/-- A run of `p` is a run of `p >>= f` up to the moment `p` returns. -/
theorem run_bind {p p' : Prog Op Ans α} {s s' : σ} (f : α → Prog Op Ans β)
    (h : S.Run (p, s) (p', s')) : S.Run (p >>= f, s) (p' >>= f, s') := by
  have key : ∀ c c' : Prog Op Ans α × σ, S.Run c c' → S.Run (c.1 >>= f, c.2) (c'.1 >>= f, c'.2) := by
    intro c c' hr
    induction hr with
    | refl => exact .refl
    | tail _ hb ih =>
      refine ih.tail ?_
      cases hb with
      | act ha => exact .act ha
      | env he => exact .env he
  exact key (p, s) (p', s') h

/-- The run of at most `n` operations in which `f` chooses the answers. -/
def follow (f : (o : Op) → σ → Ans o × σ) : (n : Nat) → Prog Op Ans α → σ → Prog Op Ans α × σ
  | n + 1, .op o k, s => follow f n (k (f o s).1) (f o s).2
  | _, p, s => (p, s)

/-- `f` may let the other side move before it answers. -/
theorem follow_run {f : (o : Op) → σ → Ans o × σ}
    (hf : ∀ o s, ∃ t, S.Drift s t ∧ S.act o t (f o s).1 (f o s).2)
    (n : Nat) (p : Prog Op Ans α) (s : σ) : S.Run (p, s) (follow f n p s) := by
  induction n generalizing p s with
  | zero => exact .refl
  | succ n ih =>
    cases p with
    | op o k =>
      obtain ⟨t, hd, ha⟩ := hf o s
      exact (run_drift _ hd).trans (.head (.act ha) (ih _ _))
    | ret a => exact .refl
    | hang => exact .refl

end Sys

/-- The answer of a program that has returned. -/
def Prog.answer? : Prog Op Ans α → Option α
  | .ret a => some a
  | _ => none

theorem Prog.eq_ret_of_answer? {p : Prog Op Ans α} {a : α} (h : p.answer? = some a) : p = .ret a := by
  cases p with
  | ret b => cases h; rfl
  | op o k => cases h
  | hang => cases h

/-- A schedule under which `p` returns. -/
theorem Sys.follow_ret {S : Sys Op Ans σ} {f : (o : Op) → σ → Ans o × σ}
    (hf : ∀ o s, ∃ t, S.Drift s t ∧ S.act o t (f o s).1 (f o s).2) (n : Nat) {p : Prog Op Ans α} {s : σ}
    {a : α} (h : (follow f n p s).1.answer? = some a) : S.Run (p, s) (.ret a, (follow f n p s).2) := by
  have hr := follow_run hf n p s
  rwa [← Prod.eta (follow f n p s), Prog.eq_ret_of_answer? h] at hr

end Driver
