import Libfic2.Driver.Traces

/-!
# Programs carried out by other programs

`p.handle h c` carries out each operation `o` of `p` by the program `h o` over other operations; a
value of `τ`, `c` at the start, is handed from one operation to the next.

When each `h o` does what `o` may do, for states related by `R` (`Simulates`), every run of `p.handle h
c` that returns is a run of `p` (`Simulates.run`), and what a program logic says about `p` holds of
`p.handle h c` (`Simulates.wp_handle`).

`p.lift f` is `p` among more operations: `o` is there `f o`, with the same answers.
-/

namespace Driver

open Prog Sys

variable {Op Op' : Type} {Ans : Op → Type} {Ans' : Op' → Type} {α τ σ σ' : Type}

/-- `p` with `h o` in place of the operation `o`. -/
def Prog.handle (h : (o : Op) → τ → Prog Op' Ans' (Ans o × τ)) : Prog Op Ans α → τ → Prog Op' Ans' (α × τ)
  | ret a, c => ret (a, c)
  | op o k, c => h o c >>= fun r => (k r.1).handle h r.2
  | hang, _ => hang

theorem handle_bind {β : Type} (h : (o : Op) → τ → Prog Op' Ans' (Ans o × τ)) (p : Prog Op Ans α)
    (f : α → Prog Op Ans β) (c : τ) :
    (p >>= f).handle h c = p.handle h c >>= fun r => (f r.1).handle h r.2 := by
  induction p generalizing c with
  | ret a => rfl
  | op o k ih =>
    show (h o c >>= fun r => (k r.1 >>= f).handle h r.2) = (h o c >>= fun r => (k r.1).handle h r.2) >>= _
    rw [bind_assoc]
    exact congrArg (h o c >>= ·) (funext fun r => ih r.1 r.2)
  | hang => rfl

/-- For states related by `R`, the program `h o` does what an operation `o` in `P` may do, and the
other side of `S'` does nothing that the one of `S` may not do. -/
structure Simulates (S : Sys Op Ans σ) (S' : Sys Op' Ans' σ') (J' : σ' → Prop)
    (P : Op → Prop) (R : σ → τ → σ' → Prop) (h : (o : Op) → τ → Prog Op' Ans' (Ans o × τ)) : Prop where
  inv : ∀ s c t, R s c t → J' t
  act : ∀ o s c t, P o → R s c t →
    wp S' J' (fun r u => ∃ s1 s', S.Drift s s1 ∧ S.act o s1 r.1 s' ∧ R s' r.2 u) (h o c) t
  env : ∀ s c t t', S'.env t t' → R s c t → ∃ s', S.Drift s s' ∧ R s' c t'

namespace Simulates

variable {S : Sys Op Ans σ} {S' : Sys Op' Ans' σ'} {J : σ → Prop} {J' : σ' → Prop}
    {P : Op → Prop} {R : σ → τ → σ' → Prop}
  {h : (o : Op) → τ → Prog Op' Ans' (Ans o × τ)} {Q : α → σ → Prop} {p : Prog Op Ans α}
    {s : σ} {c : τ} {t t' : σ'}

theorem drift (hs : Simulates S S' J' P R h) (hd : S'.Drift t t') (hR : R s c t) :
    ∃ s', S.Drift s s' ∧ R s' c t' := by
  induction hd with
  | refl => exact ⟨s, .refl, hR⟩
  | tail _ hstep ih =>
    obtain ⟨s1, hd1, h1⟩ := ih
    obtain ⟨s2, hd2, h2⟩ := hs.env _ _ _ _ hstep h1
    exact ⟨s2, hd1.trans hd2, h2⟩

theorem wp_handle (hs : Simulates S S' J' P R h) (hp : Ops P p) (hwp : wp S J Q p s) (hR : R s c t) :
    wp S' J' (fun r u => ∃ s', Q r.1 s' ∧ R s' r.2 u) (p.handle h c) t := by
  induction p generalizing s c t with
  | ret a =>
    intro u hu
    obtain ⟨s', hd, hR'⟩ := hs.drift hu hR
    exact ⟨hs.inv _ _ _ hR', s', (hwp s' hd).2, hR'⟩
  | op o k ih =>
    refine wp_bind (wp_mono (hs.act o s c t hp.1 hR) ?_)
    rintro r u - ⟨s1, s', hd, ha, hR'⟩
    exact ih r.1 (hp.2 r.1) ((hwp s1 hd).2 r.1 s' ha) hR'
  | hang =>
    intro u hu
    obtain ⟨s', -, hR'⟩ := hs.drift hu hR
    exact hs.inv _ _ _ hR'

/-- A run below that returns is a run above. -/
theorem run {a : α} {c' : τ} (hs : Simulates S S' J' P R h) (hp : Ops P p) (hR : R s c t)
    (hr : S'.Run (p.handle h c, t) (ret (a, c'), t')) : ∃ s', S.Run (p, s) (ret a, s') ∧ R s' c' t' := by
  have hwp : wp S (fun _ => True) (fun a s' => S.Run (p, s) (ret a, s')) p s :=
    wp_of_runs (fun _ _ _ => trivial) fun _ _ h => h
  exact wp_run_ret (hs.wp_handle hp hwp hR) hr

end Simulates

/-- `p` with `f o` in place of the operation `o`. -/
def Prog.lift (f : Op → Op') : Prog Op (fun o => Ans' (f o)) α → Prog Op' Ans' α
  | ret a => ret a
  | op o k => op (f o) fun a => (k a).lift f
  | hang => hang

theorem ends_lift {f : Op → Op'} {p : Prog Op (fun o => Ans' (f o)) α} {l : List (Event Op' Ans')} {a : α} :
    Ends (p.lift f) l a ↔ ∃ l' : List (Event Op fun o => Ans' (f o)),
      l = l'.map (fun e => ⟨f e.1, e.2⟩) ∧ Ends p l' a := by
  induction p generalizing l with
  | ret b =>
    constructor
    · rintro ⟨rfl, rfl⟩
      exact ⟨[], rfl, rfl, rfl⟩
    · rintro ⟨l', rfl, rfl, rfl⟩
      exact ⟨rfl, rfl⟩
  | op o k ih =>
    constructor
    · rintro ⟨c, l1, rfl, h⟩
      obtain ⟨l', rfl, h'⟩ := (ih c).1 h
      exact ⟨⟨o, c⟩ :: l', rfl, c, l', rfl, h'⟩
    · rintro ⟨l', rfl, c, l1, rfl, h⟩
      exact ⟨c, l1.map fun e => ⟨f e.1, e.2⟩, rfl, (ih c).2 ⟨l1, rfl, h⟩⟩
  | hang =>
    constructor
    · exact fun h => h.elim
    · rintro ⟨l', -, h⟩
      exact h.elim

/-- Where `f o` does what `o` does. -/
theorem wp_lift {f : Op → Op'} {S : Sys Op (fun o => Ans' (f o)) σ} {S' : Sys Op' Ans' σ}
    {J : σ → Prop} {Q : α → σ → Prop}
    (hact : ∀ o t a u, S'.act (f o) t a u → S.act o t a u) (henv : ∀ t u, S'.env t u → S.env t u)
    {p : Prog Op (fun o => Ans' (f o)) α} {s : σ} (h : wp S J Q p s) : wp S' J Q (p.lift f) s := by
  have hdrift : ∀ {t u}, S'.Drift t u → S.Drift t u := fun hd => Relation.ReflTransGen.mono henv _ _ hd
  induction p generalizing s with
  | ret a => exact fun t hd => h t (hdrift hd)
  | op o k ih =>
      exact fun t hd => ⟨(h t (hdrift hd)).1,
        fun a u hu => ih a ((h t (hdrift hd)).2 a u (hact o t a u hu))⟩
  | hang => exact fun t hd => h t (hdrift hd)

/-! ## Answers computed from answers -/

end Driver
