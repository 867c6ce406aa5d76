import Libfic2.Hls
import Libfic2.PeerRules

/-!
# The pins of a bus transaction

In a transaction RREQ is driven high and RSTB is an output.  The data pins either
carry a word (`Driving b w c g`, with RSTB at `c`) or are inputs (`Listening b c g`).

* `Driving.clear`, `Driving.send`: the two register writes that put a word on the bus.
* `wp_openBus`: SET_ALL_INPUT, `fic_comm_setup`, `fic_comm_portdir` and raising RREQ
  lead to `Driving b 0 false`, and the other side meets no strobe on the way, whatever
  the output latch was before.
* `wp_closeBus`: RREQ down, the wait for FREQ and SET_ALL_INPUT.
-/

namespace Libfic2

open Driver Prog Sys

variable (b : Board)

/-! ## Words on the data bus -/

/-- A word in the position of the data pins. -/
def busWord (w : BitVec b.width) : BitVec 32 := w.setWidth 32 <<< b.rpDataLow

/-- The data pins. -/
def dataPin (p : Nat) : Bool := decide (b.rpDataLow ≤ p) && decide (p ≤ b.rpDataTop)

/-- The word on the data pins. -/
def busBits (v : BitVec 32) : BitVec b.width := (v >>> b.rpDataLow).setWidth b.width

section
variable {b}

theorem board_pins : b.rpRreq < 28 ∧ b.rpRstb < 28 ∧ b.rpFreq < 28 ∧ b.rpFack < 28 ∧
    b.rpDataLow + b.width ≤ 24 ∧ b.width ≤ 16 ∧ b.rpRstb < b.rpRreq := by
  cases b <;> decide

theorem dataPin_iff {p : Nat} : dataPin b p = true ↔ b.rpDataLow ≤ p ∧ p < b.rpDataLow + b.width := by
  have hw : 0 < b.width := by cases b <;> decide
  unfold dataPin Board.rpDataTop
  rw [Bool.and_eq_true, decide_eq_true_eq, decide_eq_true_eq]
  omega

/-- None of the signals is a data pin, and they are different pins. -/
theorem board_apart : dataPin b b.rpRreq = false ∧ dataPin b b.rpRstb = false ∧ dataPin b b.rpFreq = false ∧
    dataPin b b.rpFack = false ∧ commPin b b.rpFreq = false ∧ commPin b b.rpFack = false ∧
    b.rpFreq ≠ b.rpFack := by
  cases b <;> decide

theorem dataPin_ne {p q : Nat} (hp : dataPin b p = true) (hq : dataPin b q = false) : p ≠ q := by
  rintro rfl
  rw [hp] at hq
  cases hq

theorem commPin_iff {p : Nat} :
    commPin b p = true ↔ p = b.rpRreq ∨ p = b.rpRstb ∨ dataPin b p = true := by
  unfold commPin dataPin
  rw [Bool.or_eq_true, Bool.or_eq_true, beq_iff_eq, beq_iff_eq, or_assoc]

theorem getLsbD_busWord (w : BitVec b.width) {p : Nat} (hp : p < 32) :
    (busWord b w).getLsbD p = (dataPin b p && w.getLsbD (p - b.rpDataLow)) := by
  have hb := board_pins (b := b)
  unfold busWord
  rw [BitVec.getLsbD_shiftLeft, BitVec.getLsbD_setWidth]
  cases hd : dataPin b p with
  | true =>
    rw [dataPin_iff] at hd
    rw [decide_eq_true hp, decide_eq_false (show ¬ p < b.rpDataLow by omega),
      decide_eq_true (show p - b.rpDataLow < 32 by omega)]
    rfl
  | false =>
    by_cases hlt : p < b.rpDataLow
    · rw [decide_eq_true hlt, Bool.not_true, Bool.and_false, Bool.false_and, Bool.false_and]
    · have : ¬ (b.rpDataLow ≤ p ∧ p < b.rpDataLow + b.width) := by
        rw [← dataPin_iff, hd]
        decide
      rw [BitVec.getLsbD_of_ge w _ (by omega), Bool.and_false, Bool.and_false, Bool.and_false]

/-- `fic_comm_send` clears RSTB and the data pins. -/
theorem getLsbD_sendMask {p : Nat} (hp : p < 32) :
    (sendMask b).getLsbD p = (p == b.rpRstb || dataPin b p) := by
  cases b <;> (revert p; decide)

end

/-! ## Pins in a transaction -/

/-- RREQ is driven high, RSTB is an output at level `c`, the data pins carry `w`. -/
structure Driving (w : BitVec b.width) (c : Bool) (g : Gpio) : Prop where
  rreq : g.high b.rpRreq = true
  rstb : g.isOut b.rpRstb = true
  level : g.lat b.rpRstb = c
  out : ∀ p, dataPin b p = true → g.isOut p = true
  data : ∀ p, dataPin b p = true → g.lat p = w.getLsbD (p - b.rpDataLow)
  freq : g.fn b.rpFreq = 0#3
  fack : g.fn b.rpFack = 0#3

/-- RREQ is driven high, RSTB is an output at level `c`, the data pins are inputs. -/
structure Listening (c : Bool) (g : Gpio) : Prop where
  rreq : g.high b.rpRreq = true
  rstb : g.isOut b.rpRstb = true
  level : g.lat b.rpRstb = c
  inputs : ∀ p, dataPin b p = true → g.fn p = 0#3
  freq : g.fn b.rpFreq = 0#3
  fack : g.fn b.rpFack = 0#3

section
variable {b} {w : BitVec b.width} {c : Bool} {g : Gpio}

theorem high_set {p : Nat} (h : g.high p = true) (v : BitVec 32) : (g.set v).high p = true := by
  unfold Gpio.high at h ⊢
  rw [Bool.and_eq_true] at h ⊢
  rw [Gpio.isOut_set, Gpio.lat_set, h.2]
  exact ⟨h.1, rfl⟩

theorem high_clr {p : Nat} (h : g.high p = true) {v : BitVec 32} (hv : v.getLsbD p = false) :
    (g.clr v).high p = true := by
  unfold Gpio.high at h ⊢
  rw [Gpio.isOut_clr, Gpio.lat_clr, hv, Bool.not_false, Bool.and_true]
  exact h

/-- RSTB is driven high exactly when the latch says so. -/
theorem Driving.strobe (h : Driving b w c g) : g.high b.rpRstb = c := by
  unfold Gpio.high
  rw [h.rstb, h.level]
  rfl

theorem Listening.strobe (h : Listening b c g) : g.high b.rpRstb = c := by
  unfold Gpio.high
  rw [h.rstb, h.level]
  rfl

/-- The other side reads the word that is driven. -/
theorem Driving.bus (h : Driving b w c g) (float : BitVec 32) : g.bus float b.rpDataLow b.width = w := by
  apply BitVec.eq_of_getLsbD_eq
  intro j hj
  have hd : dataPin b (b.rpDataLow + j) = true := by rw [dataPin_iff]; omega
  rw [Gpio.bus, getLsbD_ofBits, decide_eq_true hj, h.out _ hd, h.data _ hd, Nat.add_sub_cancel_left]
  rfl

/-- `fic_comm_send` first clears RSTB and the data pins. -/
theorem Driving.clear (h : Driving b w c g) : Driving b 0#b.width false (g.clr (sendMask b)) := by
  have hb := board_pins (b := b)
  have ha := board_apart (b := b)
  refine ⟨high_clr h.rreq ?_, h.rstb, ?_, h.out, fun p hp => ?_, h.freq, h.fack⟩
  · rw [getLsbD_sendMask (by omega), ha.1, Bool.or_false, beq_eq_false_iff_ne]
    omega
  · rw [Gpio.lat_clr, getLsbD_sendMask (by omega), beq_self_eq_true, Bool.true_or,
      Bool.not_true, Bool.and_false]
  · have := dataPin_iff.1 hp
    rw [Gpio.lat_clr, getLsbD_sendMask (by omega), hp, Bool.or_true, Bool.not_true, Bool.and_false,
      BitVec.getLsbD_zero]

/-- Then it sets RSTB and the word. -/
theorem Driving.send (h : Driving b 0#b.width false g) (w : BitVec b.width) :
    Driving b w true (g.set (rpPin b.rpRstb ||| busWord b w)) := by
  have hb := board_pins (b := b)
  have ha := board_apart (b := b)
  refine ⟨high_set h.rreq _, h.rstb, ?_, h.out, fun p hp => ?_, h.freq, h.fack⟩
  · rw [Gpio.lat_set, BitVec.getLsbD_or, getLsbD_bit, decide_eq_true (show b.rpRstb < 32 by omega),
      decide_eq_true rfl]
    simp
  · have hd := dataPin_iff.1 hp
    have hne : p ≠ b.rpRstb := dataPin_ne hp ha.2.1
    rw [Gpio.lat_set, h.data p hp, BitVec.getLsbD_zero, Bool.false_or,
      BitVec.getLsbD_or, getLsbD_bit_of_ne hne,
      Bool.false_or, getLsbD_busWord w (by omega), hp, Bool.true_and]

/-- RSTB goes down. -/
theorem Driving.fall (h : Driving b w c g) : Driving b w false (g.clr (rpPin b.rpRstb)) := by
  have hb := board_pins (b := b)
  have ha := board_apart (b := b)
  refine ⟨high_clr h.rreq (getLsbD_bit_of_ne (by omega)), h.rstb, ?_, h.out, fun p hp => ?_, h.freq, h.fack⟩
  · rw [Gpio.lat_clr, getLsbD_bit, decide_eq_true (show b.rpRstb < 32 by omega), decide_eq_true rfl]
    simp
  · have hne : p ≠ b.rpRstb := dataPin_ne hp ha.2.1
    rw [Gpio.lat_clr, h.data p hp, getLsbD_bit_of_ne hne, Bool.not_false, Bool.and_true]

theorem Listening.fall (h : Listening b c g) : Listening b false (g.clr (rpPin b.rpRstb)) := by
  have hb := board_pins (b := b)
  refine ⟨high_clr h.rreq (getLsbD_bit_of_ne (by omega)), h.rstb, ?_, h.inputs, h.freq, h.fack⟩
  rw [Gpio.lat_clr, getLsbD_bit, decide_eq_true (show b.rpRstb < 32 by omega), decide_eq_true rfl]
  simp

theorem Listening.rise (h : Listening b c g) : Listening b true (g.set (rpPin b.rpRstb)) := by
  have hb := board_pins (b := b)
  refine ⟨high_set h.rreq _, h.rstb, ?_, h.inputs, h.freq, h.fack⟩
  rw [Gpio.lat_set, getLsbD_bit, decide_eq_true (show b.rpRstb < 32 by omega), decide_eq_true rfl]
  simp

end

/-! ## Opening a transaction -/

/-- No strobe: RREQ or RSTB is not driven high. -/
def Calm (g : Gpio) : Prop := g.high b.rpRreq = false ∨ g.high b.rpRstb = false

/-- The other side keeps `X` as long as there is no strobe. -/
structure CalmStable {D : Type} (dev : Device D) (X : D → Prop) : Prop where
  env : ∀ g d d', Calm b g → X d → dev.env g d d' → X d'
  seen : ∀ g g' d, Calm b g → Calm b g' → X d → X (dev.seen g g' d)

/-- After `i` rounds of `fic_comm_setup`: RREQ, RSTB and the data pins below `i` are driven low, all
other pins are inputs. -/
def SetBelow (i : Nat) (g : Gpio) : Prop :=
  (∀ p, p < i → commPin b p = true → g.low p = true) ∧
    ∀ p, p < 30 → (i ≤ p ∨ commPin b p = false) → g.fn p = 0#3

/-- RREQ, RSTB and the data pins are driven low, except that pin `q` may be an input. -/
def OpenBut (q : Nat) (g : Gpio) : Prop :=
  (∀ p, commPin b p = true → p ≠ q → g.low p = true) ∧ g.lat q = false ∧
    ∀ p, p < 30 → commPin b p = false → g.fn p = 0#3

/-- RREQ, RSTB and the data pins are driven low, all other pins are inputs. -/
def OpenBus (g : Gpio) : Prop :=
  (∀ p, commPin b p = true → g.low p = true) ∧ ∀ p, p < 30 → commPin b p = false → g.fn p = 0#3

section
variable {b} {g : Gpio}

theorem high_of_low {p : Nat} (h : g.low p = true) : g.high p = false := by
  unfold Gpio.low at h
  unfold Gpio.high
  rw [Bool.and_eq_true, Bool.not_eq_true'] at h
  rw [h.2, Bool.and_false]

theorem high_of_fn {p : Nat} (h : g.fn p = 0#3) : g.high p = false := by
  unfold Gpio.high Gpio.isOut
  rw [h]
  rfl

theorem SetBelow.rreq {i : Nat} (h : SetBelow b i g) : g.high b.rpRreq = false := by
  have hb := board_pins (b := b)
  rcases Nat.lt_or_ge b.rpRreq i with hlt | hge
  · exact high_of_low (h.1 _ hlt (commPin_iff.2 (.inl rfl)))
  · exact high_of_fn (h.2 _ (by omega) (.inl hge))

theorem SetBelow.calm {i : Nat} (h : SetBelow b i g) : Calm b g := .inl h.rreq

/-- While pin `i` becomes an output: at RREQ itself, RSTB is already driven low. -/
theorem SetBelow.setOutput_calm {i : Nat} (h : SetBelow b i g) : Calm b (g.setOutput i) := by
  have hb := board_pins (b := b)
  have keep : ∀ p, p ≠ i → (g.setOutput i).high p = g.high p := by
    intro p hp
    unfold Gpio.high Gpio.isOut
    rw [Gpio.fn_setOutput, if_neg hp, Gpio.lat_setOutput]
  by_cases hi : b.rpRreq = i
  · right
    rw [keep _ (by omega)]
    exact high_of_low (h.1 _ (by omega) (commPin_iff.2 (.inr (.inl rfl))))
  · left
    rw [keep _ hi]
    exact h.rreq

theorem SetBelow.setInput {i : Nat} (h : SetBelow b i g) : SetBelow b i (g.setInput i) := by
  refine ⟨fun p hp hc => ?_, fun p hp hor => ?_⟩
  · have hlow := h.1 p hp hc
    unfold Gpio.low Gpio.isOut at hlow ⊢
    rw [Gpio.lat_setInput, Gpio.fn_setInput, if_neg (by omega)]
    exact hlow
  · rw [Gpio.fn_setInput, h.2 p hp hor]
    split <;> rfl

theorem SetBelow.skip {i : Nat} (h : SetBelow b i g) (hi : commPin b i = false) : SetBelow b (i + 1) g := by
  refine ⟨fun p hp hc => h.1 p ?_ hc, fun p hp hor => h.2 p hp ?_⟩
  · have : p ≠ i := by
      rintro rfl
      rw [hi] at hc
      cases hc
    omega
  · by_cases hpi : p = i
    · subst hpi; exact .inr hi
    · exact hor.imp_left (by omega)

theorem SetBelow.drive {i : Nat} (h : SetBelow b i g) (hi : i < 30) (hc : commPin b i = true) :
    SetBelow b (i + 1) ((g.setOutput i).clr (rpPin i)) := by
  have hfn := h.2 i hi (.inl (Nat.le_refl _))
  refine ⟨fun p hp hcp => ?_, fun p hp hor => ?_⟩
  · unfold Gpio.low Gpio.isOut
    rw [Gpio.fn_clr, Gpio.fn_setOutput, Gpio.lat_clr, Gpio.lat_setOutput]
    by_cases hpi : p = i
    · subst hpi
      rw [if_pos rfl, hfn, getLsbD_bit, decide_eq_true (show p < 32 by omega), decide_eq_true rfl]
      simp
    · have hlow := h.1 p (by omega) hcp
      unfold Gpio.low Gpio.isOut at hlow
      rw [if_neg hpi, getLsbD_bit_of_ne hpi, Bool.not_false, Bool.and_true]
      exact hlow
  · have hpi : p ≠ i := by
      rintro rfl
      rcases hor with hor | hor
      · omega
      · rw [hc] at hor
        cases hor
    rw [Gpio.fn_clr, Gpio.fn_setOutput, if_neg hpi]
    exact h.2 p hp (hor.imp_left (by omega))

theorem SetBelow.open (h : SetBelow b gpioPinMax g) : OpenBus b g := by
  have hb := board_pins (b := b)
  refine ⟨fun p hc => h.1 p ?_ hc, fun p hp hc => h.2 p hp (.inr hc)⟩
  simp only [gpioPinMax, rpRdwrB]
  rcases commPin_iff.1 hc with rfl | rfl | hd
  · cases b <;> decide
  · cases b <;> decide
  · rw [dataPin_iff] at hd
    omega

theorem OpenBus.calm (h : OpenBus b g) : Calm b g := .inl (high_of_low (h.1 _ (commPin_iff.2 (.inl rfl))))

theorem OpenBut.calm {q : Nat} (h : OpenBut b q g) (hq : dataPin b q = true) : Calm b g :=
  .inl (high_of_low (h.1 _ (commPin_iff.2 (.inl rfl)) (dataPin_ne hq board_apart.1).symm))

/-- `SET_INPUT(q);` for a data pin `q`. -/
theorem OpenBus.setInput (h : OpenBus b g) {q : Nat} (hq : dataPin b q = true) :
    OpenBut b q (g.setInput q) := by
  refine ⟨fun p hp hne => ?_, ?_, fun p hp hc => ?_⟩
  · have hlow := h.1 p hp
    unfold Gpio.low Gpio.isOut at hlow ⊢
    rw [Gpio.lat_setInput, Gpio.fn_setInput, if_neg hne]
    exact hlow
  · have hlow := h.1 q (commPin_iff.2 (.inr (.inr hq)))
    unfold Gpio.low at hlow
    rw [Bool.and_eq_true, Bool.not_eq_true'] at hlow
    exact hlow.2
  · rw [Gpio.fn_setInput, h.2 p hp hc]
    split <;> rfl

/-- `SET_OUTPUT(q);` after it. -/
theorem OpenBut.setOutput {q : Nat} (h : OpenBut b q (g.setInput q)) (hq : dataPin b q = true) :
    OpenBus b ((g.setInput q).setOutput q) := by
  refine ⟨fun p hp => ?_, fun p hp hc => ?_⟩
  · by_cases hpq : p = q
    · subst hpq
      have hl := h.2.1
      unfold Gpio.low Gpio.isOut
      rw [Gpio.fn_setOutput, if_pos rfl, Gpio.fn_setInput, if_pos rfl, Gpio.lat_setOutput, hl]
      rfl
    · have hlow := h.1 p hp hpq
      unfold Gpio.low Gpio.isOut at hlow ⊢
      rw [Gpio.lat_setOutput, Gpio.fn_setOutput, if_neg hpq]
      exact hlow
  · have hpq : p ≠ q := by
      rintro rfl
      rw [commPin_iff.2 (.inr (.inr hq))] at hc
      cases hc
    rw [Gpio.fn_setOutput, if_neg hpq]
    exact h.2.2 p hp hc

/-- Raising RREQ. -/
theorem OpenBus.raise (h : OpenBus b g) : Driving b 0#b.width false (g.set (rpPin b.rpRreq)) := by
  have hb := board_pins (b := b)
  have ha := board_apart (b := b)
  have hlow : ∀ p, commPin b p = true → g.isOut p = true ∧ g.lat p = false := by
    intro p hp
    have := h.1 p hp
    unfold Gpio.low at this
    rwa [Bool.and_eq_true, Bool.not_eq_true'] at this
  refine ⟨?_, (hlow _ (commPin_iff.2 (.inr (.inl rfl)))).1, ?_,
    fun p hp => (hlow p (commPin_iff.2 (.inr (.inr hp)))).1, fun p hp => ?_, ?_, ?_⟩
  · unfold Gpio.high
    rw [Gpio.isOut_set, (hlow _ (commPin_iff.2 (.inl rfl))).1, Gpio.lat_set, getLsbD_bit,
      decide_eq_true (show b.rpRreq < 32 by omega), decide_eq_true rfl]
    simp
  · rw [Gpio.lat_set, (hlow _ (commPin_iff.2 (.inr (.inl rfl)))).2, getLsbD_bit_of_ne (by omega)]
    rfl
  · rw [Gpio.lat_set, (hlow p (commPin_iff.2 (.inr (.inr hp)))).2, getLsbD_bit_of_ne (dataPin_ne hp ha.1),
      BitVec.getLsbD_zero]
    rfl
  · exact h.2 _ (by omega) ha.2.2.2.2.1
  · exact h.2 _ (by omega) ha.2.2.2.2.2.1

end

section
variable {b} {D : Type} {dev : Device D} {X : D → Prop} (cs : CalmStable b dev X) (fuel : Nat)
include cs

theorem calm_stable {A : Gpio → Prop} (hA : ∀ g, A g → Calm b g) : Stable dev (Holds A X) :=
  stable_holds fun g d d' h hX hd => cs.env g d d' (hA g h) hX hd

/-- What an operation on the pins does to an assertion without a strobe. -/
theorem calm_touch {A A' : Gpio → Prop} (hA : ∀ g, A g → Calm b g) (hA' : ∀ g, A' g → Calm b g)
    {f : Gpio → Gpio} (hstep : ∀ g, A g → A' (f g)) (t : World D) (h : Holds A X t) :
    Holds A' X (t.touch dev (f t.gpio)) :=
  ⟨hstep _ h.1, cs.seen _ _ _ (hA _ h.1) (hA' _ (hstep _ h.1)) h.2⟩

theorem calm_pins {A A' : Gpio → Prop} (hA : ∀ g, A g → Calm b g) (hA' : ∀ g, A' g → Calm b g) {o : Op}
    (ho : ∀ t a t', (sys dev).act o t a t' → t' = t.touch dev (o.pins t.gpio))
    (hstep : ∀ g, A g → A' (o.pins g)) {α : Type} {Q : α → World D → Prop} {k : Ans o → P α} {s : World D}
    (hs : Holds A X s) (h : ∀ a t, Holds A' X t → wp (sys dev) anyTime Q (k a) t) :
    wp (sys dev) anyTime Q (issue o >>= k) s :=
  wp_pinsI (calm_stable cs hA) hs ho (calm_touch cs hA hA' hstep) h

/-- What a part of the opening ends in, unless it fails. -/
def Opened (A : Gpio → Prop) (X : D → Prop) (r : Int) (t : World D) : Prop := ¬ r < 0 → Holds A X t

omit cs in
theorem opened_fail {A : Gpio → Prop} (t : World D) : Opened A X (-1) t := fun h => absurd (by decide) h

/-- A round of `fic_comm_setup`. -/
theorem wp_setupRound {i : Nat} (hi : i < 30) {s : World D} (hs : Holds (SetBelow b i) X s) :
    wp (sys dev) anyTime (Opened (SetBelow b (i + 1)) X)
      (do
        when (i == b.rpFack || i == b.rpFreq) (issue (.setInput i))
        if commPin b i then do
          setInputOutput i
          check (ficClrGpio fuel (rpPin i)) (ret 0)
        else ret 0) s := by
  have hcalm : ∀ j g, SetBelow b j g → Calm b g := fun j g h => h.calm
  suffices hmain : ∀ t, Holds (SetBelow b i) X t →
      wp (sys dev) anyTime (Opened (SetBelow b (i + 1)) X)
        (if commPin b i then do
          setInputOutput i
          check (ficClrGpio fuel (rpPin i)) (ret 0)
        else ret 0) t by
    cases i == b.rpFack || i == b.rpFreq with
    | false => exact hmain s hs
    | true =>
      exact calm_pins cs (hcalm i) (hcalm i) (o := .setInput i) (fun _ _ _ ha => ha)
        (fun g h => h.setInput) hs fun _ t ht => hmain t ht
  intro t ht
  cases hc : commPin b i with
  | false =>
    exact wp_retI (calm_stable cs (hcalm i)) ht fun u hu _ => ⟨hu.1.skip hc, hu.2⟩
  | true =>
    refine calm_pins cs (hcalm i) (hcalm i) (o := .setInput i) (fun _ _ _ ha => ha)
      (fun g h => h.setInput) ht fun _ u hu => ?_
    have hout : ∀ g, (∃ g', SetBelow b i g' ∧ g = g'.setOutput i) → Calm b g := by
      rintro _ ⟨g', h, rfl⟩
      exact h.setOutput_calm
    refine calm_pins cs (hcalm i) hout (o := .setOutput i) (fun _ _ _ ha => ha) (fun g h => ⟨g, h, rfl⟩) hu
      fun _ v hv => ?_
    refine wp_checkOr (wp_ficClrGpioI (calm_stable cs hout) hv fuel _ (calm_stable cs (hcalm (i + 1)))
      (calm_touch cs hout (hcalm (i + 1)) (f := fun g => g.clr (rpPin i)) ?_) fun r _ w hw =>
      ⟨fun _ => ?_, fun _ => ?_⟩)
    · rintro _ ⟨g', h, rfl⟩
      exact h.drive hi hc
    · exact wp_retI (calm_stable cs (hcalm _)) hw fun u _ => opened_fail u
    · exact wp_retI (calm_stable cs (hcalm _)) hw fun u hu _ => hu

/-- `fic_comm_setup` after SET_ALL_INPUT. -/
theorem wp_setupLoop {s : World D} (hs : Holds (SetBelow b 0) X s) :
    wp (sys dev) anyTime (Opened (OpenBus b) X) (forEach (fun i => do
      when (i == b.rpFack || i == b.rpFreq) (issue (.setInput i))
      if commPin b i then do
        setInputOutput i
        check (ficClrGpio fuel (rpPin i)) (ret 0)
      else ret 0) 0 gpioPinMax) s := by
  have hcalm : ∀ j g, SetBelow b j g → Calm b g := fun j g h => h.calm
  refine wp_forEach (fun i t => Holds (SetBelow b i) X t) 0 _ (fun i t _ hi ht => ?_) (fun t ht => ?_) hs
  · have hi' : i < 30 := by simp only [gpioPinMax, rpRdwrB] at hi; omega
    refine wp_mono (wp_setupRound cs fuel hi' ht) fun r u _ hu => ⟨fun _ => ?_, fun hr => hu hr⟩
    exact wp_retI (I := anyTime) (fun _ _ _ _ => trivial) trivial fun v _ => opened_fail v
  · rw [Nat.zero_add] at ht
    exact wp_retI (calm_stable cs (hcalm _)) ht fun u hu _ => ⟨hu.1.open, hu.2⟩

/-- `fic_comm_portdir(COMM_PORT_SND)` changes nothing. -/
theorem wp_portdirSnd {α : Type} {Q : α → World D → Prop} {k : Unit → P α} {s : World D}
    (hs : Holds (OpenBus b) X s)
    (h : ∀ t, Holds (OpenBus b) X t → wp (sys dev) anyTime Q (k ()) t) :
    wp (sys dev) anyTime Q (ficCommPortdir b .snd >>= k) s := by
  have hcalm : ∀ g, OpenBus b g → Calm b g := fun g h => h.calm
  refine wp_bind (wp_forDo (fun _ t => Holds (OpenBus b) X t) _ _ (fun i t h1 h2 ht => ?_)
    (fun t ht => wp_retI (calm_stable cs hcalm) ht fun u hu => h u hu) hs)
  have hq : dataPin b i = true := dataPin_iff.2 ⟨h1, h2⟩
  have hcalm' : ∀ g, (OpenBut b i g ∧ ∃ g' : Gpio, g = g'.setInput i) → Calm b g := fun g h => h.1.calm hq
  refine calm_pins cs hcalm hcalm' (o := .setInput i) (fun _ _ _ ha => ha)
    (fun g hg => ⟨hg.setInput hq, g, rfl⟩) ht fun _ u hu => ?_
  refine calm_pins cs hcalm' hcalm (o := .setOutput i) (fun _ _ _ ha => ha) ?_ hu
    fun _ v hv => wp_retI (calm_stable cs hcalm) hv fun w hw => hw
  rintro _ ⟨hg, g', rfl⟩
  exact hg.setOutput hq

/-- **Opening.**  `fic_comm_setup`, `fic_comm_portdir(COMM_PORT_SND)` and RREQ up, from a point where
SET_ALL_INPUT is known to leave all pins inputs and `X` in force. -/
theorem wp_openBus {α : Type} {Q : α → World D → Prop} {e : α} {k : P α} {s : World D}
    (hin : wp (sys dev) anyTime (fun _ t => Holds (SetBelow b 0) X t) setAllInput s)
    (he : ∀ t, Q e t)
    (h : ∀ t, Holds (Driving b 0#b.width false) X t → wp (sys dev) anyTime Q k t) :
    wp (sys dev) anyTime Q
      (checkOr e (ficCommSetup b fuel) do
        ficCommPortdir b .snd
        checkOr e (ficSetGpio fuel (rpPin b.rpRreq)) k) s := by
  have hcalm : ∀ g, OpenBus b g → Calm b g := fun g h => h.calm
  have hcalm' : ∀ g, Driving b 0#b.width false g → Calm b g := fun g h => .inr h.strobe
  have fail : ∀ t, wp (sys dev) anyTime Q (ret e) t :=
    fun t => wp_retI (I := anyTime) (fun _ _ _ _ => trivial) trivial fun u _ => he u
  refine wp_checkOr (wp_bind (wp_mono hin fun _ t _ ht => wp_mono (wp_setupLoop cs fuel ht) fun r u _ hu =>
    ⟨fun _ => fail u, fun hr => wp_portdirSnd cs (hu hr) fun v hv => ?_⟩))
  refine wp_checkOr (wp_ficSetGpioI (calm_stable cs hcalm) hv fuel _ (calm_stable cs hcalm')
    (calm_touch cs hcalm hcalm' (f := fun g => g.set (rpPin b.rpRreq)) fun g hg => hg.raise)
    fun _ _ w hw => ⟨fun _ => fail w, fun _ => h w hw⟩)

/-! ## Closing a transaction -/

variable (b) in
/-- RREQ is not driven high any more. -/
structure Released (g : Gpio) : Prop where
  rreq : g.high b.rpRreq = false
  freq : g.fn b.rpFreq = 0#3

omit cs in
theorem Released.calm {g : Gpio} (h : Released b g) : Calm b g := .inl h.rreq

omit cs in
theorem Released.clearSel {g : Gpio} (h : Released b g) (r : Nat) : Released b (g.clearSel r) := by
  constructor
  · have := h.rreq
    unfold Gpio.high Gpio.isOut at this ⊢
    rw [Gpio.fn_clearSel, Gpio.lat_clearSel]
    split
    · rfl
    · exact this
  · rw [Gpio.fn_clearSel, h.freq]
    split <;> rfl

omit cs in
/-- Clearing RREQ. -/
theorem released_clr {g : Gpio} (hf : g.fn b.rpFreq = 0#3) {m : BitVec 32}
    (hm : m.getLsbD b.rpRreq = true) : Released b (g.clr m) := by
  refine ⟨?_, hf⟩
  unfold Gpio.high
  rw [Gpio.lat_clr, hm, Bool.not_true, Bool.and_false, Bool.and_false]

/-- SET_ALL_INPUT when RREQ is not driven high. -/
theorem wp_setAllInput_released {s : World D} (hs : Holds (Released b) X s) :
    wp (sys dev) anyTime (fun _ t => Holds (SetBelow b 0) X t) setAllInput s := by
  let A : Nat → Gpio → Prop := fun r g => Released b g ∧ ∀ p, p / 10 < r → g.fn p = 0#3
  have hcalm : ∀ r g, A r g → Calm b g := fun r g h => h.1.calm
  have hstep : ∀ r g, A r g → A (r + 1) (g.clearSel r) := by
    intro r g h
    refine ⟨h.1.clearSel r, fun p hp => ?_⟩
    rw [Gpio.fn_clearSel]
    split
    · rfl
    · exact h.2 p (by omega)
  have h0 : Holds (A 0) X s := ⟨⟨hs.1, fun p hp => absurd hp (Nat.not_lt_zero _)⟩, hs.2⟩
  refine calm_pins cs (hcalm 0) (hcalm 1) (o := .clearSel 0) (fun _ _ _ ha => ha)
    (hstep 0) h0 fun _ t ht => ?_
  refine calm_pins cs (hcalm 1) (hcalm 2) (o := .clearSel 1) (fun _ _ _ ha => ha)
    (hstep 1) ht fun _ u hu => ?_
  refine calm_pins cs (hcalm 2) (hcalm 3) (o := .clearSel 2) (fun _ _ _ ha => ha)
    (hstep 2) hu fun _ v hv => ?_
  exact wp_retI (calm_stable cs (hcalm 3)) hv fun w hw =>
    ⟨⟨fun p hp => absurd hp (Nat.not_lt_zero _), fun p hp _ => hw.1.2 p (by omega)⟩, hw.2⟩

/-- **Closing.**  RREQ down, FREQ down and SET_ALL_INPUT. -/
theorem wp_closeBus {A : Gpio → Prop} {Y Z : D → Prop} {m : BitVec 32} (hm : m.getLsbD b.rpRreq = true)
    (hst : Stable dev (Holds A Y)) (hA : ∀ g, A g → g.fn b.rpFreq = 0#3)
    (hclose : ∀ g d, A g → Y d → Z (dev.seen g (g.clr m) d)) (csZ : CalmStable b dev Z)
    (hdown : ∀ g d v, Released b g → Z d → dev.level g d v → v.getLsbD b.rpFreq = false → X d)
    {α : Type} {Q : α → World D → Prop} {e : α} {k : Unit → P α} {s : World D} (hs : Holds A Y s)
    (he : ∀ t, Q e t) (h : ∀ t, Holds (SetBelow b 0) X t → wp (sys dev) anyTime Q (k ()) t) :
    wp (sys dev) anyTime Q
      (checkOr e (ficClrGpio fuel m) (checkOr e (ficCommWaitFreqDown b fuel) (setAllInput >>= k))) s := by
  have hb := board_pins (b := b)
  have fail : ∀ t, wp (sys dev) anyTime Q (ret e) t :=
    fun t => wp_retI (I := anyTime) (fun _ _ _ _ => trivial) trivial fun u _ => he u
  have hrel : ∀ g, Released b g → Calm b g := fun g h => h.calm
  have hstZ : Stable dev (Holds (Released b) Z) := calm_stable csZ hrel
  refine wp_checkOr (wp_ficClrGpioI hst hs fuel _ hstZ
    (fun t ht => ⟨released_clr (hA _ ht.1) hm, hclose _ _ ht.1 ht.2⟩)
    fun _ _ t ht => ⟨fun _ => fail t, fun _ => ?_⟩)
  refine wp_checkOr (wp_pollTimedI hstZ ht fuel (calm_stable cs hrel) (fun t v ht hv hc => ?_)
    (fun t ht => ⟨fun _ => fail t, fun _ => ?_⟩) fun t _ =>
    ⟨fun _ => fail t, fun h => absurd (by decide) h⟩)
  · rw [getPin_beq_one v (by omega)] at hc
    exact ⟨ht.1, hdown _ _ v ht.1 ht.2 hv hc⟩
  · exact wp_bind (wp_mono (wp_setAllInput_released cs ht) fun _ u _ hu => h u hu)

end

end Libfic2
