import Libfic2.Driver.Rounds

/-!
# Contracts of driver programs

A `Bench` is a deterministic other side.  The operations alone change the part `X` of its
state, and `allows` says where they may be issued.  `Contract B Pre p Post`, for a program
`p n` whose loops are given `n` rounds: begun where `Pre` holds, it

* issues allowed operations only, whatever it is answered, and ends where `Post` holds
  (`Bench.Allowed`), and
* returns on the bench, given rounds enough (`Bench.Halts`).
-/

namespace Driver

open Prog

variable {Op : Type} {Ans : Op → Type} {α β X σ : Type}

structure Bench (Op : Type) (Ans : Op → Type) (X σ : Type) where
  eff : Op → X → X
  allows : Op → X → Prop
  part : σ → X
  answer : (o : Op) → σ → Ans o × σ
  part_answer : ∀ o s, part (answer o s).2 = eff o (part s)

namespace Bench

variable (B : Bench Op Ans X σ)

/-- Every operation is issued where it is allowed, and `Q` holds at the end. -/
def Allowed (Q : α → X → Prop) : Prog Op Ans α → X → Prop
  | ret a, x => Q a x
  | op o k, x => B.allows o x ∧ ∀ a, Allowed Q (k a) (B.eff o x)
  | hang, _ => True

/-- The answer and the state at the end. -/
def exec : Prog Op Ans α → σ → Option (α × σ)
  | ret a, s => some (a, s)
  | op o k, s => exec (k (B.answer o s).1) (B.answer o s).2
  | hang, _ => none

/-- With rounds enough, `p` returns `r`. -/
def Halts (p : Nat → Prog Op Ans α) (s : σ) (r : α × σ) : Prop := ∃ N, ∀ n, N ≤ n → B.exec (p n) s = some r

variable {B} {Q : α → X → Prop} {p : Prog Op Ans α} {x : X} {s s' : σ} {a : α}

theorem allowed_mono {Q' : α → X → Prop} (h : B.Allowed Q p x) (hQ : ∀ a y, Q a y → Q' a y) :
    B.Allowed Q' p x := by
  induction p generalizing x with
  | ret a => exact hQ a x h
  | op o k ih => exact ⟨h.1, fun a => ih a (h.2 a)⟩
  | hang => trivial

theorem allowed_bind {R : β → X → Prop} {f : α → Prog Op Ans β}
    (h : B.Allowed (fun a y => B.Allowed R (f a) y) p x) : B.Allowed R (p >>= f) x := by
  induction p generalizing x with
  | ret a => exact h
  | op o k ih => exact ⟨h.1, fun a => ih a (h.2 a)⟩
  | hang => trivial

theorem exec_bind (p : Prog Op Ans α) (f : α → Prog Op Ans β) (s : σ) :
    B.exec (p >>= f) s = (B.exec p s).bind fun r => B.exec (f r.1) r.2 := by
  induction p generalizing s with
  | ret a => rfl
  | op o k ih => exact ih _ _
  | hang => rfl

/-- What holds at every end holds at the end on the bench. -/
theorem exec_allowed (h : B.Allowed Q p (B.part s)) (he : B.exec p s = some (a, s')) : Q a (B.part s') := by
  induction p generalizing s with
  | ret b =>
    obtain ⟨rfl, rfl⟩ := Prod.mk.inj (Option.some.inj he)
    exact h
  | op o k ih => exact ih _ (by rw [B.part_answer]; exact h.2 _) he
  | hang => cases he

/-- Only its operations move the bench. -/
theorem exec_induct {I : σ → Prop} (hI : ∀ o t, I t → I (B.answer o t).2) (hs : I s)
    (he : B.exec p s = some (a, s')) : I s' := by
  induction p generalizing s with
  | ret b =>
    obtain ⟨-, rfl⟩ := Prod.mk.inj (Option.some.inj he)
    exact hs
  | op o k ih => exact ih _ (hI o s hs) he
  | hang => cases he

/-- What a run of any system with the same part comes to. -/
theorem allowed_run {τ : Type} {S : Sys Op Ans τ} (π : τ → X)
    (hact : ∀ o t c t', S.act o t c t' → π t' = B.eff o (π t))
    (henv : ∀ t t', S.env t t' → π t' = π t) {p' : Prog Op Ans α} {t t' : τ} (h : B.Allowed Q p (π t))
    (hr : S.Run (p, t) (p', t')) : B.Allowed Q p' (π t') := by
  have key : ∀ c : Prog Op Ans α × τ, S.Run (p, t) c → B.Allowed Q c.1 (π c.2) := by
    intro c hc
    induction hc with
    | refl => exact h
    | tail _ hb ih =>
      cases hb with
      | act ha =>
        show B.Allowed Q _ (π _)
        rw [hact _ _ _ _ ha]
        exact ih.2 _
      | env he =>
        show B.Allowed Q _ (π _)
        rw [henv _ _ he]
        exact ih
  exact key (p', t') hr

theorem Halts.bind {p : Nat → Prog Op Ans α} {f : Nat → α → Prog Op Ans β} {r : β × σ}
    (hp : B.Halts p s (a, s'))
    (hf : B.Halts (fun n => f n a) s' r) : B.Halts (fun n => p n >>= f n) s r := by
  obtain ⟨N, hN⟩ := hp
  obtain ⟨M, hM⟩ := hf
  refine ⟨max N M, fun n hn => ?_⟩
  rw [exec_bind, hN n (by omega)]
  exact hM n (by omega)

/-- A program returns in one way. -/
theorem Halts.unique {p : Nat → Prog Op Ans α} {r r' : α × σ} (h : B.Halts p s r)
    (h' : B.Halts p s r') : r = r' := by
  obtain ⟨N, hN⟩ := h
  obtain ⟨M, hM⟩ := h'
  have h1 := hN (max N M) (by omega)
  have h2 := hM (max N M) (by omega)
  exact Option.some.inj (h1.symm.trans h2)

/-- A sequence that returns has come past its first part. -/
theorem Halts.of_bind {p : Nat → Prog Op Ans α} {f : Nat → α → Prog Op Ans β} {r : β × σ}
    (hp : B.Halts p s (a, s'))
    (h : B.Halts (fun n => p n >>= f n) s r) : B.Halts (fun n => f n a) s' r := by
  obtain ⟨N, hN⟩ := hp
  obtain ⟨M, hM⟩ := h
  refine ⟨max N M, fun n hn => ?_⟩
  have hall := hM n (by omega)
  rwa [exec_bind, hN n (by omega)] at hall

end Bench

/-! ## Contracts -/

structure Contract (B : Bench Op Ans X σ) (Pre : X → Prop) (p : Nat → Prog Op Ans α)
    (Post : α → X → Prop) : Prop where
  allowed : ∀ n x, Pre x → B.Allowed Post (p n) x
  halts : ∀ s, Pre (B.part s) → ∃ r, B.Halts p s r

section
variable {B : Bench Op Ans X σ} {Pre Pre' : X → Prop} {Post Post' : α → X → Prop} {p : Nat → Prog Op Ans α}

/-- The end of a program that keeps its contract. -/
theorem Contract.end {r : α} {s s' : σ} (h : Contract B Pre p Post) (hs : Pre (B.part s))
    (hr : B.Halts p s (r, s')) : Post r (B.part s') := by
  obtain ⟨N, hN⟩ := hr
  exact Bench.exec_allowed (h.allowed N _ hs) (hN N (Nat.le_refl N))

theorem contract_mono (h : Contract B Pre p Post) (hpre : ∀ x, Pre' x → Pre x)
    (hpost : ∀ a x, Post a x → Post' a x) : Contract B Pre' p Post' :=
  ⟨fun n x hx => Bench.allowed_mono (h.allowed n x (hpre x hx)) hpost, fun s hs => h.halts s (hpre _ hs)⟩

theorem contract_ret {a : α} (h : ∀ x, Pre x → Post a x) : Contract B Pre (fun _ => ret a) Post :=
  ⟨fun _ x hx => h x hx, fun s _ => ⟨(a, s), 0, fun _ _ => rfl⟩⟩

theorem contract_call {o : Op} {Q : Ans o → X → Prop} (ha : ∀ x, Pre x → B.allows o x)
    (h : ∀ x a, Pre x → Q a (B.eff o x)) : Contract B Pre (fun _ => call o) Q :=
  ⟨fun _ x hx => ⟨ha x hx, fun a => h x a hx⟩, fun s _ => ⟨B.answer o s, 0, fun _ _ => rfl⟩⟩

theorem contract_bind {M : α → X → Prop} {R : β → X → Prop} {f : Nat → α → Prog Op Ans β}
    (hp : Contract B Pre p M)
    (hf : ∀ a, Contract B (M a) (fun n => f n a) R) : Contract B Pre (fun n => p n >>= f n) R := by
  refine ⟨fun n x hx => ?_, fun s hs => ?_⟩
  · exact Bench.allowed_bind (Bench.allowed_mono (hp.allowed n x hx) fun a y hy => (hf a).allowed n y hy)
  · obtain ⟨⟨a, s'⟩, h1⟩ := hp.halts s hs
    obtain ⟨r, h2⟩ := (hf a).halts s' (hp.end hs h1)
    exact ⟨r, h1.bind h2⟩

theorem contract_if {c : Prop} [Decidable c] {q : Nat → Prog Op Ans α} (hp : c → Contract B Pre p Post)
    (hq : ¬ c → Contract B Pre q Post) : Contract B Pre (fun n => if c then p n else q n) Post := by
  by_cases h : c
  · simp only [if_pos h]
    exact hp h
  · simp only [if_neg h]
    exact hq h

theorem contract_when {c : Bool} {q : Nat → Prog Op Ans Unit} {R : Unit → X → Prop}
    (hq : c = true → Contract B Pre q R)
    (h : c = false → ∀ x, Pre x → R () x) : Contract B Pre (fun n => Prog.when c (q n)) R := by
  cases c with
  | true => exact hq rfl
  | false => exact contract_ret (h rfl)

theorem contract_checkOr {M : Int → X → Prop} {q : Nat → Prog Op Ans Int} {k : Nat → Prog Op Ans α} {e : α}
    (hq : Contract B Pre q M) (he : ∀ r x, r < 0 → M r x → Post e x)
    (hk : Contract B (fun x => ∃ r, 0 ≤ r ∧ M r x) k Post) :
    Contract B Pre (fun n => checkOr e (q n) (k n)) Post := by
  refine contract_bind hq fun r => contract_if (fun hr => ?_) fun hr => ?_
  · exact contract_ret fun x hx => he r x hr hx
  · exact contract_mono hk (fun x hx => ⟨r, Int.not_lt.1 hr, hx⟩) fun _ _ h => h

theorem contract_forDo {body : Nat → Nat → Prog Op Ans Unit} {I : Nat → X → Prop} (m : Nat) :
    ∀ lo, (∀ i, lo ≤ i → i < lo + m → Contract B (I i) (fun n => body n i) fun _ => I (i + 1)) →
      Contract B (I lo) (fun n => forDo (body n) lo m) fun _ => I (lo + m) := by
  induction m with
  | zero => exact fun lo _ => contract_ret fun x hx => hx
  | succ m ih =>
    intro lo h
    have hrest := ih (lo + 1) fun i h1 h2 => h i (by omega) (by omega)
    rw [show lo + 1 + m = lo + (m + 1) by omega] at hrest
    exact contract_bind (h lo (Nat.le_refl _) (by omega)) fun _ => hrest

/-- A counting loop; a round that fails ends it with `E`. -/
theorem contract_forEach {body : Nat → Nat → Prog Op Ans Int} {I : Nat → X → Prop}
    {E : X → Prop} (m : Nat) :
    ∀ lo, (∀ i, lo ≤ i → i < lo + m → Contract B (I i) (fun n => body n i) fun r x => if r < 0 then E x
    else I (i + 1) x) →
      Contract B (I lo) (fun n => forEach (body n) lo m) fun r x => if r < 0 then E x
      else I (lo + m) x := by
  induction m with
  | zero => exact fun lo _ => contract_ret fun x hx => hx
  | succ m ih =>
    intro lo h
    have hrest := ih (lo + 1) fun i h1 h2 => h i (by omega) (by omega)
    rw [show lo + 1 + m = lo + (m + 1) by omega] at hrest
    refine contract_checkOr (h lo (Nat.le_refl _) (by omega)) (fun r x hr hx => ?_)
      (contract_mono hrest (fun x hx => ?_) fun _ _ h => h)
    · rw [if_pos hr] at hx
      exact hx
    · obtain ⟨r, hr, hx⟩ := hx
      rwa [if_neg (Int.not_lt.2 hr)] at hx

/-! ## Loops -/

/-- A loop whose rounds bring its loop variables closer to the end. -/
theorem contract_whileDo {V : Type} {going : V → Bool}
    {round : Nat → V → Prog Op Ans (Option V)} (μ : V → Nat)
    (h : ∀ v, going v = true → Contract B Pre (fun n => round n v) fun r x => Pre x ∧
      ∀ w, r = some w → μ w < μ v)
    {m : Nat} {v : V} (hm : μ v < m) :
    Contract B Pre (fun n => whileDo going (round n) m v) fun _ => Pre := by
  induction m generalizing v with
  | zero => omega
  | succ m ih =>
    refine contract_if (fun hgo => contract_bind (h v hgo) fun r => ?_) fun _ => contract_ret fun _ hx => hx
    cases r with
    | none => exact contract_ret fun _ hx => hx.1
    | some w =>
      by_cases hless : μ w < μ v
      · exact contract_mono (ih (by omega)) (fun _ hx => hx.1) fun _ _ hx => hx
      · exact ⟨fun _ _ hx => absurd (hx.2 w rfl) hless, fun _ hs => absurd (hs.2 w rfl) hless⟩

/-- The end of a round: another one follows, or the loop ends. -/
def Round (Pre : X → Prop) (Post : α → X → Prop) : Option α → X → Prop
  | none, x => Pre x
  | some a, x => Post a x

/-- A loop whose rounds bring it closer to the end on the bench. -/
theorem contract_loop {body : Nat → Prog Op Ans (Option α)} (μ : σ → Nat)
    (hb : Contract B Pre body (Round Pre Post))
    (hμ : ∀ n s s', Pre (B.part s) → B.exec (body n) s = some (none, s') → μ s' < μ s) :
    Contract B Pre (fun n => loop (body n) n) Post := by
  have hallowed : ∀ n m x, Pre x → B.Allowed Post (loop (body n) m) x := by
    intro n m
    induction m with
    | zero => exact fun _ _ => trivial
    | succ m ih =>
      intro x hx
      refine Bench.allowed_bind (Bench.allowed_mono (hb.allowed n x hx) fun r y hy => ?_)
      cases r with
      | none => exact ih y hy
      | some a => exact hy
  -- the rounds already begun are not counted twice: `m` of the loop and `n` of its body
  have hhalts : ∀ k s, μ s = k → Pre (B.part s) → ∃ r N, ∀ n m, N ≤ n → N ≤ m →
      B.exec (loop (body n) m) s = some r := by
    intro k
    induction k using Nat.strongRecOn with
    | ind k ih =>
      intro s hk hs
      obtain ⟨⟨a, s1⟩, hr⟩ := hb.halts s hs
      have hround := hb.end hs hr
      obtain ⟨N, hN⟩ := hr
      cases a with
      | some a =>
        refine ⟨(a, s1), N + 1, fun n m hn hm => ?_⟩
        obtain ⟨m, rfl⟩ : ∃ j, m = j + 1 := ⟨m - 1, by omega⟩
        unfold loop
        rw [Bench.exec_bind, hN n (by omega)]
        rfl
      | none =>
        have hlt := hμ N s s1 hs (hN N (Nat.le_refl N))
        obtain ⟨r, M, hM⟩ := ih (μ s1) (by omega) s1 rfl hround
        refine ⟨r, max N (M + 1), fun n m hn hm => ?_⟩
        obtain ⟨m, rfl⟩ : ∃ j, m = j + 1 := ⟨m - 1, by omega⟩
        unfold loop
        rw [Bench.exec_bind, hN n (by omega)]
        exact hM n m (by omega) (by omega)
  refine ⟨fun n x hx => hallowed n n x hx, fun s hs => ?_⟩
  obtain ⟨r, N, hN⟩ := hhalts (μ s) s rfl hs
  exact ⟨r, N, fun n hn => hN n n hn hn⟩

end

end Driver
