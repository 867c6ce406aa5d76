import Libfic2.Comm

/-!
# Rules for devices that act by themselves

Between two operations of the library the device may take any number of steps, so
what is known at a program point must survive them (`Stable`).  The rules take a
program from one stable assertion to the next: an operation turns `I` into what
holds after it, a wait ends in an assertion `K` that the last reading has told,
or fails.
-/

namespace Libfic2

open Driver Prog Sys

variable {D : Type} {dev : Device D}

/-- The device's own steps keep `I`. -/
def Stable (dev : Device D) (I : World D → Prop) : Prop := ∀ t t', (sys dev).env t t' → I t → I t'

theorem Stable.drift {I : World D → Prop} (hst : Stable dev I) {t t' : World D}
    (hd : (sys dev).Drift t t') (h : I t) : I t' := by
  induction hd with
  | refl => exact h
  | tail _ hb ih => exact hst _ _ hb ih

/-- An assertion on the pins and on the device. -/
def Holds (A : Gpio → Prop) (X : D → Prop) (t : World D) : Prop := A t.gpio ∧ X t.dev

theorem stable_holds {A : Gpio → Prop} {X : D → Prop}
    (h : ∀ g d d', A g → X d → dev.env g d d' → X d') : Stable dev (Holds A X) := by
  rintro t t' ⟨d, hd, rfl⟩ ⟨hA, hX⟩
  exact ⟨hA, h _ _ _ hA hX hd⟩

section
variable {α : Type} {Q : α → World D → Prop} {I : World D → Prop} {s : World D}
variable (hst : Stable dev I) (hs : I s)
include hst hs

theorem wp_retI {a : α} (h : ∀ t, I t → Q a t) : wp (sys dev) anyTime Q (ret a) s :=
  fun _ ht => ⟨trivial, h _ (hst.drift ht hs)⟩

theorem wp_opI {o : Op} {k : Ans o → P α}
    (h : ∀ t a t', I t → (sys dev).act o t a t' → wp (sys dev) anyTime Q (k a) t') :
    wp (sys dev) anyTime Q (issue o >>= k) s :=
  fun t ht => ⟨trivial, fun a t' ha => h t a t' (hst.drift ht hs) ha⟩

/-- An operation on the pins. -/
theorem wp_pinsI {o : Op} {k : Ans o → P α} {I' : World D → Prop}
    (ho : ∀ t a t', (sys dev).act o t a t' → t' = t.touch dev (o.pins t.gpio))
    (hstep : ∀ t, I t → I' (t.touch dev (o.pins t.gpio)))
    (h : ∀ a t, I' t → wp (sys dev) anyTime Q (k a) t) :
    wp (sys dev) anyTime Q (issue o >>= k) s :=
  wp_opI hst hs fun t a t' ht ha => by rw [ho t a t' ha]; exact h a _ (hstep t ht)

theorem wp_getI {k : BitVec 32 → P α}
    (h : ∀ v t, I t → dev.level t.gpio t.dev v → wp (sys dev) anyTime Q (k v) t) :
    wp (sys dev) anyTime Q (issue .get >>= k) s :=
  wp_opI hst hs fun t v t' ht ha => by rw [ha.2]; exact h v t ht ha.1

theorem wp_timeI {k : Int → P α} (h : ∀ v t, I t → wp (sys dev) anyTime Q (k v) t) :
    wp (sys dev) anyTime Q (issue .time >>= k) s :=
  wp_opI hst hs fun t v t' ht (ha : t' = t) => by rw [ha]; exact h v t ht

/-! ## Waiting -/

variable {R : Int → World D → Prop} {K : World D → Prop} (fuel : Nat) {c : BitVec 32 → Bool}

/-- `K` is what is known when a reading ends the wait. -/
theorem wp_pollTimedI (hK : Stable dev K)
    (hc : ∀ t v, I t → dev.level t.gpio t.dev v → c v = false → K t)
    (h0 : ∀ t, K t → R 0 t) (h1 : ∀ t, I t → R (-1) t) :
    wp (sys dev) anyTime R (pollTimed fuel c) s := by
  refine wp_timeI hst hs fun t1 u hu => wp_loop I fuel (fun t ht => ?_) hu
  refine wp_getI hst ht fun v t ht hv => ?_
  split
  · refine wp_timeI hst ht fun t2 t ht => ?_
    split
    · exact wp_retI hst ht fun t ht => wp_retI hst ht h1
    · exact wp_retI hst ht fun t ht => ht
  · next hcv => exact wp_retI hK (hc t v ht hv (by simpa using hcv)) fun t ht => wp_retI hK ht h0

theorem wp_spinI (hK : Stable dev K) (hc : ∀ t v, I t → dev.level t.gpio t.dev v → c v = false → K t)
    (h0 : ∀ t, K t → R 0 t) : wp (sys dev) anyTime R (spin fuel c) s := by
  refine wp_loop I fuel (fun t ht => ?_) hs
  refine wp_getI hst ht fun v t ht hv => ?_
  split
  · exact wp_retI hst ht fun t ht => ht
  · next hcv => exact wp_retI hK (hc t v ht hv (by simpa using hcv)) fun t ht => wp_retI hK ht h0

omit hs in
theorem wp_pollCountedI (n : Nat) (hs : I s) (hK : Stable dev K)
    (hc : ∀ t v, I t → dev.level t.gpio t.dev v → c v = false → K t)
    (h0 : ∀ t, K t → R 0 t) (h1 : ∀ t, I t → R (-1) t) :
    wp (sys dev) anyTime R (pollCounted c n) s := by
  induction n generalizing s with
  | zero =>
    refine wp_getI hst hs fun v t ht hv => ?_
    split
    · exact wp_retI hst ht h1
    · next hcv => exact wp_retI hK (hc t v ht hv (by simpa using hcv)) h0
  | succ n ih =>
    refine wp_getI hst hs fun v t ht hv => ?_
    split
    · exact ih ht
    · next hcv => exact wp_retI hK (hc t v ht hv (by simpa using hcv)) h0

/-! ## Setting and clearing pins -/

variable (m : BitVec 32) (hK : Stable dev K)
include hK

omit c in
theorem wp_ficSetGpioI (hstep : ∀ t, I t → K (t.touch dev (t.gpio.set m)))
    (h : ∀ r, r = 0 ∨ r = -1 → ∀ t, K t → R r t) :
    wp (sys dev) anyTime R (ficSetGpio fuel m) s :=
  wp_pinsI hst hs (fun _ _ _ ha => ha) hstep fun _ _ ht =>
    wp_pollTimedI hK ht fuel hK (fun _ _ ht _ _ => ht) (h 0 (.inl rfl)) (h (-1) (.inr rfl))

omit c in
theorem wp_ficClrGpioI (hstep : ∀ t, I t → K (t.touch dev (t.gpio.clr m)))
    (h : ∀ r, r = 0 ∨ r = -1 → ∀ t, K t → R r t) :
    wp (sys dev) anyTime R (ficClrGpio fuel m) s :=
  wp_pinsI hst hs (fun _ _ _ ha => ha) hstep fun _ _ ht =>
    wp_pollTimedI hK ht fuel hK (fun _ _ ht _ _ => ht) (h 0 (.inl rfl)) (h (-1) (.inr rfl))

omit c in
theorem wp_ficSetGpioFastI (hstep : ∀ t, I t → K (t.touch dev (t.gpio.set m))) (h : ∀ t, K t → R 0 t) :
    wp (sys dev) anyTime R (ficSetGpioFast fuel m) s :=
  wp_pinsI hst hs (fun _ _ _ ha => ha) hstep fun _ _ ht =>
    wp_spinI hK ht fuel hK (fun _ _ ht _ _ => ht) h

omit c in
theorem wp_ficClrGpioFastI (hstep : ∀ t, I t → K (t.touch dev (t.gpio.clr m))) (h : ∀ t, K t → R 0 t) :
    wp (sys dev) anyTime R (ficClrGpioFast fuel m) s :=
  wp_pinsI hst hs (fun _ _ _ ha => ha) hstep fun _ _ ht =>
    wp_spinI hK ht fuel hK (fun _ _ ht _ _ => ht) h

end

end Libfic2
