import Libfic2.Driver.Prog

/-!
# A program logic for driver programs

`wp S J Q p s`: started in `s`, every moment of every run of `p` satisfies `J`,
and whenever `p` returns `a` the state satisfies `Q a` (partial correctness,
for every answer of the device and every interleaving).  `wp_run` is its
soundness: a run takes `wp` along; `wp_of_runs` is the converse.

`can S Q p s` is the dual: some run of `p` from `s` returns an `a` with `Q a`
(`can_run`), for showing that a bad end is reached.

`Ops P p`: every operation `p` may ever issue satisfies `P`.  When each such
operation keeps `J` (`KeepsOps`), so does `p` (`wp_of_ops`); this is how an
invariant is carried through code whose exact course does not matter.
-/

namespace Driver

open Prog Sys

variable {Op : Type} {Ans : Op → Type} {α β σ : Type} (S : Sys Op Ans σ) {J : σ → Prop}

/-- Weakest precondition of `p` for the invariant `J` and the postcondition `Q`. -/
def wp (J : σ → Prop) (Q : α → σ → Prop) : Prog Op Ans α → σ → Prop
  | ret a, s => ∀ s', S.Drift s s' → J s' ∧ Q a s'
  | op o k, s => ∀ s', S.Drift s s' → J s' ∧ ∀ a s'', S.act o s' a s'' → wp J Q (k a) s''
  | hang, s => ∀ s', S.Drift s s' → J s'

variable {S} {Q : α → σ → Prop} {p : Prog Op Ans α} {s s' : σ}

theorem wp_drift (h : wp S J Q p s) (hd : S.Drift s s') : wp S J Q p s' := by
  cases p with
  | ret a => exact fun t ht => h t (hd.trans ht)
  | op o k => exact fun t ht => h t (hd.trans ht)
  | hang => exact fun t ht => h t (hd.trans ht)

theorem wp_inv (h : wp S J Q p s) : J s := by
  cases p with
  | ret a => exact (h s .refl).1
  | op o k => exact (h s .refl).1
  | hang => exact h s .refl

theorem wp_ret {a : α} (h : wp S J Q (ret a) s) : Q a s := (h s .refl).2

theorem wp_mono {Q' : α → σ → Prop} (h : wp S J Q p s) (hQ : ∀ a t, J t → Q a t → Q' a t) :
    wp S J Q' p s := by
  induction p generalizing s with
  | ret a => exact fun t ht => ⟨(h t ht).1, hQ a t (h t ht).1 (h t ht).2⟩
  | op o k ih => exact fun t ht => ⟨(h t ht).1, fun a u hu => ih a ((h t ht).2 a u hu)⟩
  | hang => exact h

theorem wp_weaken {J' : σ → Prop} (h : wp S J Q p s) (hJ : ∀ t, J t → J' t) : wp S J' Q p s := by
  induction p generalizing s with
  | ret a => exact fun t ht => ⟨hJ t (h t ht).1, (h t ht).2⟩
  | op o k ih => exact fun t ht => ⟨hJ t (h t ht).1, fun a u hu => ih a ((h t ht).2 a u hu)⟩
  | hang => exact fun t ht => hJ t (h t ht)

theorem wp_and {J' : σ → Prop} {Q' : α → σ → Prop} (h : wp S J Q p s) (h' : wp S J' Q' p s) :
    wp S (fun t => J t ∧ J' t) (fun a t => Q a t ∧ Q' a t) p s := by
  induction p generalizing s with
  | ret a => exact fun t ht => ⟨⟨(h t ht).1, (h' t ht).1⟩, (h t ht).2, (h' t ht).2⟩
  | op o k ih =>
      exact fun t ht => ⟨⟨(h t ht).1, (h' t ht).1⟩,
        fun a u hu => ih a ((h t ht).2 a u hu) ((h' t ht).2 a u hu)⟩
  | hang => exact fun t ht => ⟨h t ht, h' t ht⟩

theorem wp_bind {f : α → Prog Op Ans β} {R : β → σ → Prop}
    (h : wp S J (fun a t => wp S J R (f a) t) p s) : wp S J R (p >>= f) s := by
  induction p generalizing s with
  | ret a => exact wp_ret h
  | op o k ih => exact fun t ht => ⟨(h t ht).1, fun a u hu => ih a ((h t ht).2 a u hu)⟩
  | hang => exact h

/-! ## Soundness -/

theorem wp_step {c c' : Prog Op Ans α × σ} (h : wp S J Q c.1 c.2) (hs : S.Step c c') :
    wp S J Q c'.1 c'.2 := by
  cases hs with
  | act ha => exact (h _ .refl).2 _ _ ha
  | env he => exact wp_drift h (.single he)

theorem wp_run {p' : Prog Op Ans α} (h : wp S J Q p s) (hr : S.Run (p, s) (p', s')) :
    wp S J Q p' s' := by
  have key : ∀ c : Prog Op Ans α × σ, S.Run (p, s) c → wp S J Q c.1 c.2 := by
    intro c hc
    induction hc with
    | refl => exact h
    | tail _ hb ih => exact wp_step ih hb
  exact key (p', s') hr

/-- Every moment of a run satisfies the invariant. -/
theorem wp_run_inv {p' : Prog Op Ans α} (h : wp S J Q p s) (hr : S.Run (p, s) (p', s')) : J s' :=
  wp_inv (wp_run h hr)

/-- Every end of a run satisfies the postcondition. -/
theorem wp_run_ret {a : α} (h : wp S J Q p s) (hr : S.Run (p, s) (ret a, s')) : Q a s' :=
  wp_ret (wp_run h hr)

/-- `wp` asks for no more than what holds of all runs. -/
theorem wp_of_runs (hJ : ∀ p' t, S.Run (p, s) (p', t) → J t)
    (hQ : ∀ a t, S.Run (p, s) (ret a, t) → Q a t) : wp S J Q p s := by
  induction p generalizing s with
  | ret a => exact fun t ht => ⟨hJ _ t (run_drift _ ht), hQ a t (run_drift _ ht)⟩
  | op o k ih =>
    intro t ht
    refine ⟨hJ _ t (run_drift _ ht), fun a u hu => ih a (fun p' v hv => ?_) fun b v hv => ?_⟩
    · exact hJ p' v (((run_drift _ ht).tail (.act hu)).trans hv)
    · exact hQ b v (((run_drift _ ht).tail (.act hu)).trans hv)
  | hang => exact fun t ht => hJ _ t (run_drift _ ht)

/-! ## Rules for the other constructs -/

theorem wp_checkOr {e : α} {q : Prog Op Ans Int} {k : Prog Op Ans α}
    (h : wp S J (fun r t => (r < 0 → wp S J Q (ret e) t) ∧ (¬ r < 0 → wp S J Q k t)) q s) :
    wp S J Q (checkOr e q k) s := by
  refine wp_bind (wp_mono h fun r t _ ht => ?_)
  split
  · next hr => exact ht.1 hr
  · next hr => exact ht.2 hr

/-- A loop whose body keeps `I` while it goes on and reaches `Q` when it stops. -/
theorem wp_loop {body : Prog Op Ans (Option α)} (I : σ → Prop) (n : Nat)
    (hb : ∀ t, I t → wp S J (fun r u => match r with
      | none => I u
      | some a => wp S J Q (ret a) u) body t)
    (h : I s) : wp S J Q (loop body n) s := by
  induction n generalizing s with
  | zero => exact fun t ht => wp_inv (wp_drift (hb s h) ht)
  | succ n ih =>
    refine wp_bind (wp_mono (hb s h) fun r t _ ht => ?_)
    cases r with
    | none => exact ih ht
    | some a => exact ht

/-- A counting loop: `I i` holds before round `i`, and a round that fails ends with `Q (-1)`. -/
theorem wp_forEach {body : Nat → Prog Op Ans Int} {R : Int → σ → Prop} (I : Nat → σ → Prop)
    (lo n : Nat)
    (hb : ∀ i t, lo ≤ i → i < lo + n → I i t →
      wp S J (fun r u => (r < 0 → wp S J R (ret (-1)) u) ∧ (¬ r < 0 → I (i + 1) u)) (body i) t)
    (hQ : ∀ t, I (lo + n) t → wp S J R (ret 0) t) (h : I lo s) :
    wp S J R (forEach body lo n) s := by
  induction n generalizing lo s with
  | zero => exact hQ s h
  | succ n ih =>
    refine wp_checkOr (wp_mono (hb lo s (Nat.le_refl _) (by omega) h) fun r t _ ht => ?_)
    refine ⟨ht.1, fun hr => ih (lo + 1) (fun i u hi hi' => hb i u (by omega) (by omega)) ?_ (ht.2 hr)⟩
    intro u hu
    exact hQ u (by rwa [show lo + (n + 1) = lo + 1 + n by omega])

theorem wp_forDo {body : Nat → Prog Op Ans Unit} {R : Unit → σ → Prop} (I : Nat → σ → Prop) (lo n : Nat)
    (hb : ∀ i t, lo ≤ i → i < lo + n → I i t → wp S J (fun _ u => I (i + 1) u) (body i) t)
    (hQ : ∀ t, I (lo + n) t → wp S J R (ret ()) t) (h : I lo s) :
    wp S J R (forDo body lo n) s := by
  induction n generalizing lo s with
  | zero => exact hQ s h
  | succ n ih =>
    refine wp_bind (wp_mono (hb lo s (Nat.le_refl _) (by omega) h) fun r t _ ht => ?_)
    refine ih (lo + 1) (fun i u hi hi' => hb i u (by omega) (by omega)) (fun u hu => ?_) ht
    exact hQ u (by rwa [show lo + (n + 1) = lo + 1 + n by omega])

/-! ## Systems whose other side does not move -/

section
variable (hq : S.Quiet)
include hq

theorem wp_retQuiet {a : α} (hJ : J s) (h : Q a s) : wp S J Q (ret a) s := by
  intro t ht
  rw [hq.drift ht]
  exact ⟨hJ, h⟩

theorem wp_callQuiet {o : Op} {k : Ans o → Prog Op Ans α} (hJ : J s)
    (h : ∀ a t, S.act o s a t → wp S J Q (k a) t) : wp S J Q (call o >>= k) s := by
  intro t ht
  rw [hq.drift ht]
  exact ⟨hJ, h⟩

end

/-! ## Programs that only issue certain operations -/

/-- Every operation `p` may issue satisfies `P`. -/
def Ops (P : Op → Prop) : Prog Op Ans α → Prop
  | ret _ => True
  | op o k => P o ∧ ∀ a, Ops P (k a)
  | hang => True

section
variable {P : Op → Prop}

@[simp] theorem ops_ret (a : α) : Ops P (ret a : Prog Op Ans α) := trivial

@[simp] theorem ops_hang : Ops P (hang : Prog Op Ans α) := trivial

@[simp] theorem ops_op (o : Op) (k : Ans o → Prog Op Ans α) :
    Ops P (op o k) ↔ P o ∧ ∀ a, Ops P (k a) := Iff.rfl

theorem ops_call (o : Op) (h : P o) : Ops P (call o : Prog Op Ans (Ans o)) := ⟨h, fun _ => trivial⟩

theorem ops_bind {f : α → Prog Op Ans β} (hp : Ops P p) (hf : ∀ a, Ops P (f a)) :
    Ops P (p >>= f) := by
  induction p with
  | ret a => exact hf a
  | op o k ih => exact ⟨hp.1, fun a => ih a (hp.2 a)⟩
  | hang => trivial

theorem ops_mono {P' : Op → Prop} (h : Ops P p) (hP : ∀ o, P o → P' o) : Ops P' p := by
  induction p with
  | ret a => trivial
  | op o k ih => exact ⟨hP o h.1, fun a => ih a (h.2 a)⟩
  | hang => trivial

theorem ops_checkOr {e : α} {q : Prog Op Ans Int} {k : Prog Op Ans α} (hq : Ops P q) (hk : Ops P k) :
    Ops P (checkOr e q k) := by
  refine ops_bind hq fun r => ?_
  split
  · trivial
  · exact hk

theorem ops_check {q k : Prog Op Ans Int} (hq : Ops P q) (hk : Ops P k) : Ops P (check q k) :=
  ops_checkOr hq hk

theorem ops_loop {body : Prog Op Ans (Option α)} (h : Ops P body) (n : Nat) :
    Ops P (loop body n) := by
  induction n with
  | zero => trivial
  | succ n ih =>
    refine ops_bind h fun r => ?_
    cases r with
    | none => exact ih
    | some a => trivial

theorem ops_when {c : Bool} {q : Prog Op Ans Unit} (hq : c = true → Ops P q) : Ops P (Prog.when c q) := by
  unfold Prog.when
  split
  · next hc => exact hq hc
  · trivial

theorem ops_forDo {body : Nat → Prog Op Ans Unit} (n : Nat) :
    ∀ lo, (∀ i, lo ≤ i → i < lo + n → Ops P (body i)) → Ops P (forDo body lo n) := by
  induction n with
  | zero => intro lo _; trivial
  | succ n ih =>
    intro lo h
    exact ops_bind (h lo (Nat.le_refl _) (by omega)) fun _ =>
      ih (lo + 1) fun i h1 h2 => h i (by omega) (by omega)

theorem ops_forEach {body : Nat → Prog Op Ans Int} (n : Nat) :
    ∀ lo, (∀ i, lo ≤ i → i < lo + n → Ops P (body i)) → Ops P (forEach body lo n) := by
  induction n with
  | zero => intro lo _; trivial
  | succ n ih =>
    intro lo h
    exact ops_check (h lo (Nat.le_refl _) (by omega))
      (ih (lo + 1) fun i h1 h2 => h i (by omega) (by omega))

theorem ops_true (p : Prog Op Ans α) : Ops (fun _ => True) p := by
  induction p with
  | ret a => trivial
  | op o k ih => exact ⟨trivial, fun a => ih a⟩
  | hang => trivial

/-- The next operation at any moment of a run is one of them. -/
theorem ops_run {p' : Prog Op Ans α} (h : Ops P p) (hr : S.Run (p, s) (p', s')) : Ops P p' := by
  have key : ∀ c : Prog Op Ans α × σ, S.Run (p, s) c → Ops P c.1 := by
    intro c hc
    induction hc with
    | refl => exact h
    | tail _ hb ih =>
      cases hb with
      | act ha => exact ih.2 _
      | env he => exact ih
  exact key (p', s') hr

/-- `p` always comes to an end, with an answer in `R`, whatever the device answers. -/
def Returns (R : α → Prop) : Prog Op Ans α → Prop
  | ret a => R a
  | op _ k => ∀ a, Returns R (k a)
  | hang => False

section
variable {R : α → Prop}

theorem returns_bind {R' : β → Prop} {f : α → Prog Op Ans β} (hp : Returns R p)
    (hf : ∀ a, R a → Returns R' (f a)) : Returns R' (p >>= f) := by
  induction p with
  | ret a => exact hf a hp
  | op o k ih => exact fun a => ih a (hp a)
  | hang => exact hp

theorem ops_bind_returns {P : Op → Prop} {f : α → Prog Op Ans β} (hp : Ops P p) (hr : Returns R p)
    (hf : ∀ a, R a → Ops P (f a)) : Ops P (p >>= f) := by
  induction p with
  | ret a => exact hf a hr
  | op o k ih => exact ⟨hp.1, fun a => ih a (hp.2 a) (hr a)⟩
  | hang => trivial

theorem wp_returns (h : wp S J Q p s) (hr : Returns R p) : wp S J (fun a t => R a ∧ Q a t) p s := by
  induction p generalizing s with
  | ret a => exact fun t ht => ⟨(h t ht).1, hr, (h t ht).2⟩
  | op o k ih => exact fun t ht => ⟨(h t ht).1, fun a u hu => ih a ((h t ht).2 a u hu) (hr a)⟩
  | hang => exact h

/-- No run hangs. -/
theorem returns_run {p' : Prog Op Ans α} (h : Returns R p) (hr : S.Run (p, s) (p', s')) : Returns R p' := by
  have key : ∀ c : Prog Op Ans α × σ, S.Run (p, s) c → Returns R c.1 := by
    intro c hc
    induction hc with
    | refl => exact h
    | tail _ hb ih =>
      cases hb with
      | act ha => exact ih _
      | env he => exact ih
  exact key (p', s') hr

/-- Some run ends within `G`, when every operation has an answer that keeps `G`. -/
theorem returns_within {G : σ → Prop} (h : Returns R p)
    (hG : ∀ o t, G t → ∃ a u, S.act o t a u ∧ G u) (hs : G s) :
    ∃ a t, S.Run (p, s) (ret a, t) ∧ G t := by
  induction p generalizing s with
  | ret a => exact ⟨a, s, .refl, hs⟩
  | op o k ih =>
    obtain ⟨a, u, ha, hu⟩ := hG o s hs
    obtain ⟨b, v, hr, hv⟩ := ih a (h a) hu
    exact ⟨b, v, .head (.act ha) hr, hv⟩
  | hang => exact h.elim

end

/-- `J` survives every operation in `P` and every step of the other side. -/
structure KeepsOps (S : Sys Op Ans σ) (P : Op → Prop) (J : σ → Prop) : Prop where
  act : ∀ o s a s', P o → S.act o s a s' → J s → J s'
  env : ∀ s s', S.env s s' → J s → J s'

theorem KeepsOps.drift (h : KeepsOps S P J) (hd : S.Drift s s') (hs : J s) : J s' := by
  induction hd with
  | refl => exact hs
  | tail _ hb ih => exact h.env _ _ hb ih

/-- An invariant of the operations is an invariant of the program. -/
theorem wp_of_ops (hk : KeepsOps S P J) (hp : Ops P p) (hs : J s) : wp S J (fun _ => J) p s := by
  induction p generalizing s with
  | ret a => exact fun t ht => ⟨hk.drift ht hs, hk.drift ht hs⟩
  | op o k ih =>
    exact fun t ht => ⟨hk.drift ht hs,
      fun a u hu => ih a (hp.2 a) (hk.act o t a u hp.1 hu (hk.drift ht hs))⟩
  | hang => exact fun t ht => hk.drift ht hs

end

/-! ## Some run -/

/-- Some run of `p` from `s` ends with `Q`. -/
def can (S : Sys Op Ans σ) (Q : α → σ → Prop) : Prog Op Ans α → σ → Prop
  | ret a, s => Q a s
  | op o k, s => ∃ t a s', S.Drift s t ∧ S.act o t a s' ∧ can S Q (k a) s'
  | hang, _ => False

theorem can_run (h : can S Q p s) : ∃ a s', S.Run (p, s) (ret a, s') ∧ Q a s' := by
  induction p generalizing s with
  | ret a => exact ⟨a, s, .refl, h⟩
  | op o k ih =>
    obtain ⟨t, a, u, hd, ha, hk⟩ := h
    obtain ⟨b, v, hr, hb⟩ := ih a hk
    exact ⟨b, v, ((run_drift _ hd).tail (.act ha)).trans hr, hb⟩
  | hang => exact h.elim

theorem can_bind {f : α → Prog Op Ans β} {R : β → σ → Prop}
    (h : can S (fun a t => can S R (f a) t) p s) : can S R (p >>= f) s := by
  induction p generalizing s with
  | ret a => exact h
  | op o k ih =>
    obtain ⟨t, a, u, hd, ha, hk⟩ := h
    exact ⟨t, a, u, hd, ha, ih a hk⟩
  | hang => exact h.elim

theorem can_mono {Q' : α → σ → Prop} (h : can S Q p s) (hQ : ∀ a t, Q a t → Q' a t) :
    can S Q' p s := by
  induction p generalizing s with
  | ret a => exact hQ a s h
  | op o k ih =>
    obtain ⟨t, a, u, hd, ha, hk⟩ := h
    exact ⟨t, a, u, hd, ha, ih a hk⟩
  | hang => exact h.elim

theorem can_checkOr {e : α} {q : Prog Op Ans Int} {k : Prog Op Ans α}
    (h : can S (fun r t => ¬ r < 0 ∧ can S Q k t) q s) : can S Q (checkOr e q k) s := by
  refine can_bind (can_mono h fun r t ht => ?_)
  rw [if_neg ht.1]
  exact ht.2

/-- A loop that stops in its first round. -/
theorem can_loop {body : Prog Op Ans (Option α)} {n : Nat}
    (h : can S (fun r t => ∃ a, r = some a ∧ Q a t) body s) : can S Q (loop body (n + 1)) s := by
  refine can_bind (can_mono h fun r t ht => ?_)
  obtain ⟨a, rfl, hq⟩ := ht
  exact hq

theorem can_forEach {body : Nat → Prog Op Ans Int} {R : Int → σ → Prop} (I : Nat → σ → Prop) (lo n : Nat)
    (hb : ∀ i t, I i t → can S (fun r u => ¬ r < 0 ∧ I (i + 1) u) (body i) t)
    (hQ : ∀ t, I (lo + n) t → R 0 t) (h : I lo s) : can S R (forEach body lo n) s := by
  induction n generalizing lo s with
  | zero => exact hQ s h
  | succ n ih =>
    refine can_checkOr (can_mono (hb lo s h) fun r t ht => ⟨ht.1, ih (lo + 1) (fun u hu => ?_) ht.2⟩)
    exact hQ u (by rwa [show lo + (n + 1) = lo + 1 + n by omega])

/-- Some run of `p` from `s` comes to an operation in `P`. -/
def reaches (S : Sys Op Ans σ) (P : Op → Prop) : Prog Op Ans α → σ → Prop
  | ret _, _ => False
  | op o k, s => P o ∨ ∃ a s', S.act o s a s' ∧ reaches S P (k a) s'
  | hang, _ => False

section
variable {P : Op → Prop}

theorem reaches_run (h : reaches S P p s) : ∃ o k s', S.Run (p, s) (op o k, s') ∧ P o := by
  induction p generalizing s with
  | ret a => exact h.elim
  | op o k ih =>
    rcases h with ho | ⟨a, u, ha, hk⟩
    · exact ⟨o, k, s, .refl, ho⟩
    · obtain ⟨o', k', v, hr, ho⟩ := ih a hk
      exact ⟨o', k', v, .head (.act ha) hr, ho⟩
  | hang => exact h.elim

theorem reaches_bind {f : α → Prog Op Ans β} (h : reaches S P p s) : reaches S P (p >>= f) s := by
  induction p generalizing s with
  | ret a => exact h.elim
  | op o k ih => exact h.imp id fun ⟨a, u, ha, hk⟩ => ⟨a, u, ha, ih a hk⟩
  | hang => exact h.elim

theorem reaches_after {f : α → Prog Op Ans β}
    (h : can S (fun a t => reaches S P (f a) t) p s) (hq : S.Quiet) : reaches S P (p >>= f) s := by
  induction p generalizing s with
  | ret a => exact h
  | op o k ih =>
    obtain ⟨t, a, u, hd, ha, hk⟩ := h
    rw [hq.drift hd] at ha
    exact .inr ⟨a, u, ha, ih a hk⟩
  | hang => exact h.elim

theorem reaches_call {o : Op} {f : Ans o → Prog Op Ans β} (a : Ans o) (ha : S.act o s a s')
    (h : reaches S P (f a) s') : reaches S P (call o >>= f) s :=
  .inr ⟨a, s', ha, h⟩

end

end Driver
