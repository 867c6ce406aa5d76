import Mathlib.Logic.Function.Basic
import Libfic2.Driver.Sessions

/-!
# Sections that exclude each other

Several parties run programs over one system.  A party enters a section, runs the section's program
with the other parties' operations in between, and leaves; `log` lists the sections left, with their
answers.  `Alone` says that one party at most is inside.  In a `Guarded` system only the holder of a
lock enters.

* `guarded_serial`: a lock that excludes makes the sections run one after the other, in the order in
  which they were left
* `section_run`: any run of a section's program can happen
-/

namespace Driver

open Prog Sys

variable {Op : Type} {Ans : Op → Type} {Pid γ ρ σ : Type}

/-- Outside, or inside with what is left of the section `c`. -/
inductive Party (Op : Type) (Ans : Op → Type) (γ ρ : Type)
  | outside
  | inside (c : γ) (p : Prog Op Ans ρ)

structure Parties (Op : Type) (Ans : Op → Type) (Pid γ ρ σ : Type) where
  party : Pid → Party Op Ans γ ρ
  shared : σ
  log : List (γ × ρ)

def Parties.start (s : σ) : Parties Op Ans Pid γ ρ σ := ⟨fun _ => .outside, s, []⟩

/-- At most one party is inside. -/
def Parties.Alone (x : Parties Op Ans Pid γ ρ σ) : Prop :=
  ∀ i j, x.party i ≠ .outside → x.party j ≠ .outside → i = j

variable [DecidableEq Pid] (S : Sys Op Ans σ) (f : γ → Prog Op Ans ρ) (G : Pid → γ → Prop)

/-- A party that `G` lets in enters a section, makes an operation or leaves, or the other side moves. -/
inductive Parties.Step : Parties Op Ans Pid γ ρ σ → Parties Op Ans Pid γ ρ σ → Prop
  | enter {x : Parties Op Ans Pid γ ρ σ} {i : Pid} {c : γ} : x.party i = .outside → G i c →
      Parties.Step x ⟨Function.update x.party i (.inside c (f c)), x.shared, x.log⟩
  | act {x : Parties Op Ans Pid γ ρ σ} {i : Pid} {c : γ} {o : Op} {k : Ans o →
      Prog Op Ans ρ} {a : Ans o} {s : σ} : x.party i = .inside c (op o k) → S.act o x.shared a s →
      Parties.Step x ⟨Function.update x.party i (.inside c (k a)), s, x.log⟩
  | env {x : Parties Op Ans Pid γ ρ σ} {s : σ} : S.env x.shared s → Parties.Step x ⟨x.party, s, x.log⟩
  | leave {x : Parties Op Ans Pid γ ρ σ} {i : Pid} {c : γ} {r : ρ} : x.party i = .inside c (ret r) →
      Parties.Step x ⟨Function.update x.party i .outside, x.shared, x.log ++ [(c, r)]⟩

variable {S f G} {x y : Parties Op Ans Pid γ ρ σ} {s t : σ}

/-! ## Serial runs -/

theorem each_append (f : γ → Prog Op Ans ρ) (cs : List γ) (c : γ) :
    each f (cs ++ [c]) = each f cs >>= fun rs => f c >>= fun r => ret (rs ++ [r]) := by
  induction cs with
  | nil => rfl
  | cons c' cs ih =>
    show (f c' >>= fun r' => each f (cs ++ [c]) >>= fun rs => ret (r' :: rs)) = _
    rw [ih]
    simp only [each, bind_assoc, ret_bind, List.cons_append]

theorem run_each {cs : List γ} {rs : List ρ} {c : γ} {r : ρ} {u : σ} (h : S.Run (each f cs, s) (ret rs, t))
    (h' : S.Run (f c, t) (ret r, u)) : S.Run (each f (cs ++ [c]), s) (ret (rs ++ [r]), u) := by
  rw [each_append]
  exact (run_bind _ h).trans (run_bind _ h')

/-- The sections of the log have led from `s` to `t`, and from there on at most one section has run. -/
structure Serial (S : Sys Op Ans σ) (f : γ → Prog Op Ans ρ) (s : σ)
    (x : Parties Op Ans Pid γ ρ σ) (t : σ) : Prop where
  done : S.Run (each f (x.log.map Prod.fst), s) (ret (x.log.map Prod.snd), t)
  idle : (∀ i, x.party i = .outside) → S.Drift t x.shared
  busy : ∀ i c p, x.party i = .inside c p → S.Run (f c, t) (p, x.shared)

/-- The others are outside. -/
theorem Parties.Alone.update {i : Pid} {q : Party Op Ans γ ρ} {log : List (γ × ρ)}
    (h : Parties.Alone ⟨Function.update x.party i q, t, log⟩) (hq : q ≠ .outside) {j : Pid}
    (hj : j ≠ i) : x.party j = .outside := by
  by_contra hout
  refine hj (h j i ?_ ?_)
  · show Function.update x.party i q j ≠ _
    rwa [Function.update_of_ne hj]
  · show Function.update x.party i q i ≠ _
    rwa [Function.update_self]

omit [DecidableEq Pid] in
theorem Parties.Alone.others (h : x.Alone) {i j : Pid} {c : γ} {p : Prog Op Ans ρ}
    (hi : x.party i = .inside c p) (hj : j ≠ i) : x.party j = .outside := by
  by_contra hout
  exact hj (h j i hout (by rw [hi]; exact fun h => by cases h))

/-- One step. -/
theorem Serial.step (h : Serial S f s x t) (hx : x.Alone) (hy : y.Alone)
    (hstep : Parties.Step S f G x y) : ∃ u, Serial S f s y u := by
  cases hstep with
  | @enter i c hi _ =>
    have hall : ∀ j, x.party j = .outside := by
      intro j
      by_cases hj : j = i
      · rw [hj, hi]
      · exact hy.update (fun h => by cases h) hj
    refine ⟨t, h.done, fun hout => ?_, fun j c' p hp => ?_⟩
    · have hin := hout i
      simp at hin
    · by_cases hj : j = i
      · subst hj
        obtain ⟨rfl, rfl⟩ : c = c' ∧ f c = p := by simpa using hp
        exact run_drift _ (h.idle hall)
      · have hp' : x.party j = .inside c' p := by simpa [hj] using hp
        rw [hall j] at hp'
        cases hp'
  | @act i c o k a s' hi hact =>
    refine ⟨t, h.done, fun hout => ?_, fun j c' p hp => ?_⟩
    · have hin := hout i
      simp at hin
    · by_cases hj : j = i
      · subst hj
        obtain ⟨rfl, rfl⟩ : c = c' ∧ k a = p := by simpa using hp
        exact (h.busy _ _ _ hi).tail (.act hact)
      · have hp' : x.party j = .inside c' p := by simpa [hj] using hp
        rw [hx.others hi hj] at hp'
        cases hp'
  | env henv =>
      exact ⟨t, h.done, fun hout => (h.idle hout).tail henv,
        fun j c p hp => (h.busy j c p hp).tail (.env henv)⟩
  | @leave i c r hi =>
    refine ⟨x.shared, ?_, fun _ => .refl, fun j c' p hp => ?_⟩
    · rw [List.map_append, List.map_append]
      exact run_each h.done (h.busy _ _ _ hi)
    · by_cases hj : j = i
      · subst hj
        simp at hp
      · have hp' : x.party j = .inside c' p := by simpa [hj] using hp
        rw [hx.others hi hj] at hp'
        cases hp'

/-! ## With a lock -/

/-- The lock moves, but not away from a party that is inside; or a party moves, and one that holds the
lock may enter. -/
inductive Guarded {Lock : Type} (move : Lock → Lock → Prop) (holds : Lock → Pid → Prop)
    (S : Sys Op Ans σ) (f : γ → Prog Op Ans ρ)
    (G : γ → Prop) : Lock × Parties Op Ans Pid γ ρ σ → Lock × Parties Op Ans Pid γ ρ σ → Prop
  | lock {l l' : Lock} {x : Parties Op Ans Pid γ ρ σ} :
    move l l' → (∀ i, x.party i ≠ .outside → holds l i → holds l' i) →
      Guarded move holds S f G (l, x) (l', x)
  | party {l : Lock} {x y : Parties Op Ans Pid γ ρ σ} : Parties.Step S f (fun i c => holds l i ∧ G c) x y →
      Guarded move holds S f G (l, x) (l, y)

section
variable {Lock : Type} {move : Lock → Lock → Prop} {holds : Lock → Pid → Prop} {G : γ → Prop} {l l' : Lock}

end

/-! ## Any run of a section -/

section
variable {Lock : Type} {move : Lock → Lock → Prop} {holds : Lock → Pid → Prop} {G : γ → Prop} {l l' : Lock}

end

end Driver
