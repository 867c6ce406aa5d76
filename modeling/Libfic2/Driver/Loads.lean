import Libfic2.Driver.Traces

/-!
# Programs that load from a buffer

A program over `BufOp Op` issues the operations `Op` of a device and loads words of a
buffer.  `readFrom data p` is `p` with its loads answered from `data`; `buffered S data` lets
`p` itself run beside the device.  `LoadsIn S data N p s`: no run of `p` from `s` loads a word
at `N` or behind it.

* `loadsIn_load`, `loadsIn_onDev`, `loadsIn_bind`: what a sequence loads, part by part.
* `run_readFrom`: a run of `p` is one of `readFrom data p`.
-/

namespace Driver

open Prog Sys

variable {Op : Type} {Ans : Op → Type} {V α β σ : Type}

/-- An operation of the device, or the evaluation of `data[i]`. -/
inductive BufOp (Op : Type)
  | dev (o : Op)
  | load (i : Nat)

@[reducible] def BufAns (Ans : Op → Type) (V : Type) : BufOp Op → Type
  | .dev o => Ans o
  | .load _ => V

namespace Prog

/-- A program that loads nothing. -/
def onDev : Prog Op Ans α → Prog (BufOp Op) (BufAns Ans V) α
  | ret a => ret a
  | op o k => op (.dev o) fun a => onDev (k a)
  | hang => hang

/-- `data[i]`. -/
def load (i : Nat) : Prog (BufOp Op) (BufAns Ans V) V := op (.load i) ret

/-- Every load answered from `data`. -/
def readFrom (data : Nat → V) : Prog (BufOp Op) (BufAns Ans V) α → Prog Op Ans α
  | ret a => ret a
  | op (.dev o) k => op o fun a => readFrom data (k a)
  | op (.load i) k => readFrom data (k (data i))
  | hang => hang

variable (data : Nat → V)

@[simp] theorem load_bind (i : Nat) (f : V → Prog (BufOp Op) (BufAns Ans V) α) :
    load i >>= f = op (.load i) f := rfl

@[simp] theorem readFrom_ret (a : α) :
    readFrom data (ret a : Prog (BufOp Op) (BufAns Ans V) α) = ret a := rfl

@[simp] theorem readFrom_load (i : Nat) (k : V → Prog (BufOp Op) (BufAns Ans V) α) :
    readFrom data (op (.load i) k) = readFrom data (k (data i)) := rfl

@[simp] theorem readFrom_onDev (p : Prog Op Ans α) : readFrom data (onDev p) = p := by
  induction p with
  | ret a => rfl
  | op o k ih => exact congrArg (op o) (funext ih)
  | hang => rfl

@[simp] theorem readFrom_bind (p : Prog (BufOp Op) (BufAns Ans V) α)
    (f : α → Prog (BufOp Op) (BufAns Ans V) β) :
    readFrom data (p >>= f) = readFrom data p >>= fun a => readFrom data (f a) := by
  induction p with
  | ret a => rfl
  | op o k ih =>
    cases o with
    | dev o => exact congrArg (op o) (funext ih)
    | load i => exact ih (data i)
  | hang => rfl

@[simp] theorem readFrom_ite (c : Prop) [Decidable c] (p q : Prog (BufOp Op) (BufAns Ans V) α) :
    readFrom data (if c then p else q) = if c then readFrom data p else readFrom data q := by
  split <;> rfl

@[simp] theorem readFrom_checkOr (e : α) (p : Prog (BufOp Op) (BufAns Ans V) Int)
    (k : Prog (BufOp Op) (BufAns Ans V) α) :
    readFrom data (checkOr e p k) = checkOr e (readFrom data p) (readFrom data k) := by
  simp only [checkOr, readFrom_bind, readFrom_ite, readFrom_ret]

end Prog

/-! ## Runs -/

/-- The device, with the buffer beside it. -/
def Sys.buffered (S : Sys Op Ans σ) (data : Nat → V) : Sys (BufOp Op) (BufAns Ans V) σ where
  act
    | .dev o, s, a, s' => S.act o s a s'
    | .load i, s, a, s' => a = data i ∧ s' = s
  env := S.env

/-- Every word loaded stands before `N`. -/
def LoadsIn (S : Sys Op Ans σ) (data : Nat → V) (N : Nat)
    (p : Prog (BufOp Op) (BufAns Ans V) α) (s : σ) : Prop :=
  ∀ i k t, (S.buffered data).Run (p, s) (op (.load i) k, t) → i < N

variable {S : Sys Op Ans σ} {data : Nat → V} {N : Nat} {p p' : Prog (BufOp Op) (BufAns Ans V) α} {s s' : σ}

/-- A run from an operation: it is still to be issued, or it has been. -/
theorem run_op {o : Op} {k : Ans o → Prog Op Ans α} {y : Prog Op Ans α × σ} (h : S.Run (op o k, s) y) :
    (∃ t, S.Drift s t ∧ y = (op o k, t)) ∨ ∃ t a u, S.Drift s t ∧ S.act o t a u ∧ S.Run (k a, u) y := by
  induction h with
  | refl => exact .inl ⟨s, .refl, rfl⟩
  | tail _ hstep ih =>
    rcases ih with ⟨t, hd, rfl⟩ | ⟨t, a, u, hd, ha, hr⟩
    · cases hstep with
      | act ha => exact .inr ⟨t, _, _, hd, ha, .refl⟩
      | env he => exact .inl ⟨_, hd.tail he, rfl⟩
    · exact .inr ⟨t, a, u, hd, ha, hr.tail hstep⟩

/-- A program with no operation left stays as it is. -/
theorem run_idle {q q' : Prog Op Ans α} (hq : ∀ o k, q ≠ op o k) (h : S.Run (q, s) (q', s')) : q' = q := by
  have key : ∀ c, S.Run (q, s) c → c.1 = q := by
    intro c hc
    induction hc with
    | refl => rfl
    | tail _ hstep ih =>
      cases hstep with
      | act ha => exact absurd ih.symm (hq _ _)
      | env he => exact ih
  exact key (q', s') h

/-- A run of `p` is a run with its loads answered; a load is no step of the device. -/
theorem run_readFrom (h : (S.buffered data).Run (p, s) (p', s')) :
    S.Run (readFrom data p, s) (readFrom data p', s') := by
  have key : ∀ c, (S.buffered data).Run (p, s) c → S.Run (readFrom data p, s) (readFrom data c.1, c.2) := by
    intro c hc
    induction hc with
    | refl => exact .refl
    | tail _ hstep ih =>
      cases hstep with
      | @act o _ _ _ _ ha =>
        cases o with
        | dev o => exact ih.tail (.act ha)
        | load i =>
          obtain ⟨rfl, rfl⟩ := ha
          exact ih
      | env he => exact ih.tail (.env he)
  exact key (p', s') h

theorem run_onDev {q q' : Prog Op Ans α} (data : Nat → V) (h : S.Run (q, s) (q', s')) :
    (S.buffered data).Run (onDev q, s) (onDev q', s') := by
  have key : ∀ c, S.Run (q, s) c → (S.buffered data).Run (onDev q, s) (onDev c.1, c.2) := by
    intro c hc
    induction hc with
    | refl => exact .refl
    | tail _ hstep ih =>
      cases hstep with
      | act ha => exact ih.tail (.act (o := BufOp.dev _) ha)
      | env he => exact ih.tail (.env he)
  exact key (q', s') h

theorem loadsIn_run (h : LoadsIn S data N p s) (hr : (S.buffered data).Run (p, s) (p', s')) :
    LoadsIn S data N p' s' :=
  fun i k t ht => h i k t (hr.trans ht)

theorem loadsIn_ret (a : α) : LoadsIn S data N (ret a) s := by
  intro i k t h
  have hend := run_idle (fun o k => by rintro ⟨⟩) h
  cases hend

theorem loadsIn_hang : LoadsIn S data N (hang : Prog (BufOp Op) (BufAns Ans V) α) s := by
  intro i k t h
  have hend : op (BufOp.load i) k = hang := run_idle (fun o k' => by rintro ⟨⟩) h
  cases hend

/-- A load, and what follows. -/
theorem loadsIn_load {i : Nat} {f : V → Prog (BufOp Op) (BufAns Ans V) α} :
    LoadsIn S data N (load i >>= f) s ↔ i < N ∧ LoadsIn S data N (f (data i)) s := by
  constructor
  · intro h
    exact ⟨h i f s .refl,
      loadsIn_run h (.single (.act (o := BufOp.load i) (show data i = data i ∧ s = s from ⟨rfl, rfl⟩)))⟩
  · rintro ⟨hi, h⟩ j k t hr
    rcases run_op hr with ⟨u, -, he⟩ | ⟨u, a, v, hd, ⟨rfl, rfl⟩, hr'⟩
    · cases he
      exact hi
    · exact h j k t ((run_drift (S := S.buffered data) _ hd).trans hr')

/-- The device moves, and what follows. -/
theorem loadsIn_dev {o : Op} {k : Ans o → Prog (BufOp Op) (BufAns Ans V) α}
    (h : ∀ t a u, S.Drift s t → S.act o t a u → LoadsIn S data N (k a) u) :
    LoadsIn S data N (op (.dev o) k) s := by
  intro j k' t hr
  rcases run_op (o := BufOp.dev o) hr with ⟨u, -, he⟩ | ⟨u, a, v, hd, ha, hr'⟩
  · cases he
  · exact h u a v hd ha j k' t hr'

/-- The first part of a sequence loads no more than the whole. -/
theorem loadsIn_of_bind {f : α → Prog (BufOp Op) (BufAns Ans V) β} (h : LoadsIn S data N (p >>= f) s) :
    LoadsIn S data N p s :=
  fun i _ t hr => h i _ t (run_bind f hr)

/-- A part that loads nothing. -/
theorem loadsIn_quiet (q : Prog Op Ans α) : LoadsIn S data N (onDev q) s := by
  induction q generalizing s with
  | ret a => exact loadsIn_ret a
  | op o k ih => exact loadsIn_dev fun _ a _ _ _ => ih a
  | hang => exact loadsIn_hang

theorem loadsIn_bind {f : α → Prog (BufOp Op) (BufAns Ans V) β} (h : LoadsIn S data N p s)
    (hf : ∀ a t, LoadsIn S data N (f a) t) : LoadsIn S data N (p >>= f) s := by
  induction p generalizing s with
  | ret a => exact hf a s
  | op o k ih =>
    cases o with
    | dev o =>
      refine loadsIn_dev fun t a u hd ha => ih a (loadsIn_run h ?_)
      exact (run_drift (S := S.buffered data) _ hd).tail (.act (o := BufOp.dev o) ha)
    | load i =>
      obtain ⟨hi, hrest⟩ := loadsIn_load.1 h
      exact loadsIn_load.2 ⟨hi, ih (data i) hrest⟩
  | hang => exact loadsIn_hang

/-- Such a part, and what follows each of its ends. -/
theorem loadsIn_onDev {q : Prog Op Ans α} {f : α → Prog (BufOp Op) (BufAns Ans V) β} :
    LoadsIn S data N (onDev q >>= f) s ↔ ∀ a t, S.Run (q, s) (ret a, t) → LoadsIn S data N (f a) t := by
  constructor
  · exact fun h a t hr => loadsIn_run h (run_bind f (run_onDev data hr))
  · intro h
    induction q generalizing s with
    | ret a => exact h a s .refl
    | op o k ih =>
      refine loadsIn_dev fun t a u hd ha => ih a fun b w hw => h b w ?_
      exact (run_drift _ hd).trans (.head (.act ha) hw)
    | hang => exact loadsIn_hang

theorem loadsIn_checkOr {q : Prog Op Ans Int} {k : Prog (BufOp Op) (BufAns Ans V) α} {e : α} :
    LoadsIn S data N (checkOr e (onDev q) k) s ↔ ∀ r t, S.Run (q, s) (ret r, t) → 0 ≤ r →
      LoadsIn S data N k t := by
  refine loadsIn_onDev.trans (forall₃_congr fun r t _ => ?_)
  by_cases hr : r < 0
  · rw [if_pos hr]
    exact ⟨fun _ h => absurd hr (Int.not_lt.2 h), fun _ => loadsIn_ret e⟩
  · rw [if_neg hr]
    exact (imp_iff_right (Int.not_lt.1 hr)).symm

end Driver
