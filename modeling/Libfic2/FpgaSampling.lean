import Libfic2.DeviceRules

/-!
# The FPGA as a sampler of the configuration data pins

`sampler lv float n` records the word on CD0 .. CD(n-1) whenever CCLK becomes driven
high while CSI_B and RDWR_B are driven low.  `Clocked n d c g`: the pins are set up for
the data loop, the data pins carry `d` and CCLK is at `c`.

* `wp_progSetup`: the part before the data loop ends in `Clocked n 0 false` and lets
  nothing be sampled, whatever the pins and the latch were before.
* `can_progSetup`: and it can succeed.
-/

namespace Libfic2

open Driver Prog

/-! ## The device -/

/-- CCLK becomes driven high while CSI_B and RDWR_B are driven low. -/
def clockEdge (g g' : Gpio) : Bool :=
  g'.high rpCclk && !g.high rpCclk && (g'.low rpCsiB && g'.low rpRdwrB)

/-- Samples `n` data pins at every clock edge; undriven pins read `float` at the FPGA, and
GET_GPIO reads what `lv` allows. -/
def sampler (lv : Gpio → BitVec 32 → Prop) (float : BitVec 32) (n : Nat) : Device (List (BitVec n)) where
  level g _ v := lv g v
  seen g g' d := if clockEdge g g' then d ++ [g'.bus float (rpCd 0) n] else d
  env _ _ _ := False

section
variable {lv : Gpio → BitVec 32 → Prop} {float : BitVec 32} {n : Nat} (s : World (List (BitVec n)))

theorem sampler_still : (sampler lv float n).Still := fun _ _ _ h => h

/-- Without a clock edge nothing is sampled. -/
theorem touch_silent {g : Gpio} (h : clockEdge s.gpio g = false) :
    s.touch (sampler lv float n) g = { s with gpio := g } := by
  unfold World.touch sampler
  dsimp only
  rw [h]
  rfl

/-- CCLK does not become driven high. -/
theorem clockEdge_of_high {g g' : Gpio} (h : g'.high rpCclk = true → g.high rpCclk = true) :
    clockEdge g g' = false := by
  unfold clockEdge
  cases h1 : g'.high rpCclk
  · rfl
  · rw [h h1]; rfl

theorem clockEdge_of_lat {g g' : Gpio} (hf : g'.fn rpCclk = g.fn rpCclk)
    (hl : g'.lat rpCclk = true → g.lat rpCclk = true) : clockEdge g g' = false := by
  refine clockEdge_of_high fun h => ?_
  unfold Gpio.high Gpio.isOut at h ⊢
  rw [Bool.and_eq_true] at h ⊢
  exact ⟨by rw [← hf]; exact h.1, hl h.2⟩

/-- CSI_B is an input. -/
theorem clockEdge_of_csi {g g' : Gpio} (h : g'.fn rpCsiB = 0#3) : clockEdge g g' = false := by
  have hl : g'.low rpCsiB = false := by unfold Gpio.low Gpio.isOut; rw [h]; rfl
  unfold clockEdge
  rw [hl]
  simp

theorem clockEdge_clr (g : Gpio) (v : BitVec 32) : clockEdge g (g.clr v) = false :=
  clockEdge_of_lat rfl fun h => by rw [Gpio.lat_clr, Bool.and_eq_true] at h; exact h.1

theorem clockEdge_set {g : Gpio} {v : BitVec 32} (h : v.getLsbD rpCclk = false) :
    clockEdge g (g.set v) = false :=
  clockEdge_of_lat rfl fun hl => by rw [Gpio.lat_set, h, Bool.or_false] at hl; exact hl

theorem clockEdge_fn_zero {g g' : Gpio} (h : g'.fn rpCclk = 0#3) : clockEdge g g' = false := by
  have hl : g'.high rpCclk = false := by unfold Gpio.high Gpio.isOut; rw [h]; rfl
  unfold clockEdge
  rw [hl]
  rfl

theorem clockEdge_setInput (g : Gpio) (p : Nat) : clockEdge g (g.setInput p) = false := by
  by_cases h : rpCclk = p
  · exact clockEdge_fn_zero (by rw [Gpio.fn_setInput, if_pos h])
  · exact clockEdge_of_lat (by rw [Gpio.fn_setInput, if_neg h]) id

theorem clockEdge_clearSel (g : Gpio) (r : Nat) : clockEdge g (g.clearSel r) = false := by
  by_cases h : rpCclk / 10 = r
  · exact clockEdge_fn_zero (by rw [Gpio.fn_clearSel, if_pos h])
  · exact clockEdge_of_lat (by rw [Gpio.fn_clearSel, if_neg h]) id

theorem clockEdge_setOutput (g : Gpio) {p : Nat} (h : p ≠ rpCclk) : clockEdge g (g.setOutput p) = false :=
  clockEdge_of_lat (by rw [Gpio.fn_setOutput, if_neg (Ne.symm h)]) id

end

/-! ## Pins during the data loop -/

/-- CSI_B and RDWR_B are driven low, CCLK is an output at level `c`, the data pins carry bits
8 .. 8+n-1 of `d`. -/
structure Clocked (n : Nat) (d : BitVec 32) (c : Bool) (g : Gpio) : Prop where
  csiB : g.low rpCsiB = true
  rdwrB : g.low rpRdwrB = true
  cclk : g.isOut rpCclk = true
  level : g.lat rpCclk = c
  out : ∀ j, j < n → g.isOut (rpCd j) = true
  data : ∀ j, j < n → g.lat (rpCd j) = d.getLsbD (rpCd j)

/-- The data word driven by `d`. -/
def dataWord (n : Nat) (d : BitVec 32) : BitVec n := d.extractLsb' 8 n

section
variable {n : Nat} {d : BitVec 32} {c : Bool} {g : Gpio}

theorem Clocked.bus (h : Clocked n d c g) (float : BitVec 32) : g.bus float (rpCd 0) n = dataWord n d := by
  apply BitVec.eq_of_getLsbD_eq
  intro j hj
  have ho := h.out j hj
  have hd := h.data j hj
  simp only [rpCd] at ho hd
  rw [Gpio.bus, getLsbD_ofBits, dataWord, BitVec.getLsbD_extractLsb']
  simp [hj, ho, hd]

theorem low_set {g : Gpio} {v : BitVec 32} {p : Nat} (h : g.low p = true) (hv : v.getLsbD p = false) :
    (g.set v).low p = true := by
  unfold Gpio.low at h ⊢
  rw [Gpio.lat_set, hv, Bool.or_false]
  exact h

theorem low_clr {g : Gpio} {v : BitVec 32} {p : Nat} (h : g.low p = true) : (g.clr v).low p = true := by
  unfold Gpio.low at h ⊢
  rw [Gpio.isOut_clr, Gpio.lat_clr]
  rw [Bool.and_eq_true, Bool.not_eq_true'] at h
  rw [h.1, h.2]
  rfl

/-- Clearing CCLK and the data pins in `v`. -/
theorem Clocked.clr (h : Clocked n d c g) {v e : BitVec 32} (hv : v.getLsbD rpCclk = true)
    (he : ∀ j, j < n → e.getLsbD (rpCd j) = (d.getLsbD (rpCd j) && !v.getLsbD (rpCd j))) :
    Clocked n e false (g.clr v) where
  csiB := low_clr h.csiB
  rdwrB := low_clr h.rdwrB
  cclk := h.cclk
  level := by rw [Gpio.lat_clr, hv]; simp
  out := h.out
  data j hj := by rw [Gpio.lat_clr, h.data j hj, he j hj]

/-- Setting the data pins in `v`, and CCLK if it is in `v`. -/
theorem Clocked.set (h : Clocked n d c g) {v e : BitVec 32} (h26 : v.getLsbD rpCsiB = false)
    (h27 : v.getLsbD rpRdwrB = false)
    (he : ∀ j, j < n → e.getLsbD (rpCd j) = (d.getLsbD (rpCd j) || v.getLsbD (rpCd j))) :
    Clocked n e (c || v.getLsbD rpCclk) (g.set v) where
  csiB := low_set h.csiB h26
  rdwrB := low_set h.rdwrB h27
  cclk := h.cclk
  level := by rw [Gpio.lat_set, h.level]
  out := h.out
  data j hj := by rw [Gpio.lat_set, h.data j hj, he j hj]

variable {lv : Gpio → BitVec 32 → Prop} {float : BitVec 32} {s : World (List (BitVec n))}

/-- What the FPGA sees of a set: one sample if CCLK rises. -/
theorem Clocked.touch_set {v e : BitVec 32} (h : Clocked n d c s.gpio)
    (h' : Clocked n e (c || v.getLsbD rpCclk) (s.gpio.set v)) :
    s.touch (sampler lv float n) (s.gpio.set v) =
      { s with gpio := s.gpio.set v
               dev := s.dev ++ if v.getLsbD rpCclk && !c then [dataWord n e] else [] } := by
  have hedge : clockEdge s.gpio (s.gpio.set v) = (v.getLsbD rpCclk && !c) := by
    unfold clockEdge Gpio.high
    rw [h'.csiB, h'.rdwrB, h'.cclk, h.cclk, h'.level, h.level]
    cases c <;> cases v.getLsbD rpCclk <;> rfl
  unfold World.touch sampler
  dsimp only
  rw [hedge, h'.bus float]
  split <;> simp

end

/-! ## Operations without a clock edge -/

section
variable {lv : Gpio → BitVec 32 → Prop} {float : BitVec 32} {n : Nat}
variable {base : List (BitVec n)} {s : World (List (BitVec n))} {α : Type}
variable {Q : α → World (List (BitVec n)) → Prop} (hd : s.dev = base)
include hd

theorem silent_ret {a : α} (hQ : Q a s) :
    wp (sys (sampler lv float n)) (fun t => t.dev = base) Q (ret a) s :=
  wp_retStill sampler_still hd hQ

theorem silent_setInput (p : Nat) {k : Unit → P α}
    (hk : ∀ t : World (List (BitVec n)), t.dev = base → t.gpio = s.gpio.setInput p →
      wp (sys (sampler lv float n)) (fun t => t.dev = base) Q (k ()) t) :
    wp (sys (sampler lv float n)) (fun t => t.dev = base) Q (issue (.setInput p) >>= k) s := by
  refine wp_setInput sampler_still hd p ?_
  rw [touch_silent s (clockEdge_setInput _ _)]
  exact hk _ hd rfl

theorem silent_clearSel (r : Nat) {k : Unit → P α}
    (hk : ∀ t : World (List (BitVec n)), t.dev = base → t.gpio = s.gpio.clearSel r →
      wp (sys (sampler lv float n)) (fun t => t.dev = base) Q (k ()) t) :
    wp (sys (sampler lv float n)) (fun t => t.dev = base) Q (issue (.clearSel r) >>= k) s := by
  refine wp_opStill sampler_still hd fun _ s' (ha : s' = s.touch _ (s.gpio.clearSel r)) => ?_
  rw [ha, touch_silent s (clockEdge_clearSel _ _)]
  exact hk _ hd rfl

theorem silent_setOutput (p : Nat) {k : Unit → P α} (h : clockEdge s.gpio (s.gpio.setOutput p) = false)
    (hk : ∀ t : World (List (BitVec n)), t.dev = base → t.gpio = s.gpio.setOutput p →
      wp (sys (sampler lv float n)) (fun t => t.dev = base) Q (k ()) t) :
    wp (sys (sampler lv float n)) (fun t => t.dev = base) Q (issue (.setOutput p) >>= k) s := by
  refine wp_setOutput sampler_still hd p ?_
  rw [touch_silent s h]
  exact hk _ hd rfl

/-- `SET_INPUT(p); SET_OUTPUT(p);` -/
theorem silent_setInputOutput (p : Nat) {k : Unit → P α}
    (h : p ≠ rpCclk ∨ (p ≠ rpCsiB ∧ s.gpio.fn rpCsiB = 0#3))
    (hk : ∀ t : World (List (BitVec n)), t.dev = base → t.gpio = (s.gpio.setInput p).setOutput p →
      wp (sys (sampler lv float n)) (fun t => t.dev = base) Q (k ()) t) :
    wp (sys (sampler lv float n)) (fun t => t.dev = base) Q (setInputOutput p >>= k) s := by
  refine silent_setInput hd p fun t ht et => silent_setOutput ht p ?_ fun u hu eu =>
    hk u hu (by rw [eu, et])
  rcases h with h | ⟨hp, h⟩
  · exact clockEdge_setOutput _ h
  · refine clockEdge_of_csi ?_
    rw [Gpio.fn_setOutput, et, Gpio.fn_setInput, if_neg (Ne.symm hp), if_neg (Ne.symm hp), h]

theorem silent_checkSet (fuel : Nat) {e : α} {k : P α} (m : BitVec 32) (hm : m.getLsbD rpCclk = false)
    (he : ∀ t : World (List (BitVec n)), t.dev = base → Q e t)
    (hk : ∀ t : World (List (BitVec n)), t.dev = base → t.gpio = s.gpio.set m →
      wp (sys (sampler lv float n)) (fun t => t.dev = base) Q k t) :
    wp (sys (sampler lv float n)) (fun t => t.dev = base) Q (checkOr e (ficSetGpio fuel m) k) s := by
  refine wp_checkSet sampler_still fuel hd e m ?_ ?_
  · rw [touch_silent s (clockEdge_set hm)]
    refine silent_ret ?_ (he _ ?_) <;> exact hd
  · rw [touch_silent s (clockEdge_set hm)]
    exact hk _ hd rfl

theorem silent_checkClr (fuel : Nat) {e : α} {k : P α} (m : BitVec 32)
    (he : ∀ t : World (List (BitVec n)), t.dev = base → Q e t)
    (hk : ∀ t : World (List (BitVec n)), t.dev = base → t.gpio = s.gpio.clr m →
      wp (sys (sampler lv float n)) (fun t => t.dev = base) Q k t) :
    wp (sys (sampler lv float n)) (fun t => t.dev = base) Q (checkOr e (ficClrGpio fuel m) k) s := by
  refine wp_checkClr sampler_still fuel hd e m ?_ ?_
  · rw [touch_silent s (clockEdge_clr _ _)]
    refine silent_ret ?_ (he _ ?_) <;> exact hd
  · rw [touch_silent s (clockEdge_clr _ _)]
    exact hk _ hd rfl

end

/-! ## The part before the data loop -/

/-- After `i` rounds of the pin loop: the pins from `i` on are still inputs, CCLK and the data pins
below `i` are driven low. -/
def PinsBelow (n i : Nat) (g : Gpio) : Prop :=
  (∀ p, i ≤ p → p < 30 → g.fn p = 0#3) ∧ ∀ p, p < i → smLowPin n p = true → g.low p = true

/-- CCLK and the data pins are driven low. -/
def LowPins (n : Nat) (g : Gpio) : Prop := ∀ p, smLowPin n p = true → g.low p = true

theorem smLowPin_bounds {n p : Nat} (hn : n ≤ 16) (h : smLowPin n p = true) : 7 ≤ p ∧ p < 24 := by
  unfold smLowPin at h
  simp only [Bool.or_eq_true, Bool.and_eq_true, beq_iff_eq, decide_eq_true_eq] at h
  simp only [rpCclk, rpCd] at h
  omega

theorem smHighPin_bounds {b : Board} {p : Nat} (h : smHighPin b p = true) : p < 7 ∨ 24 ≤ p := by
  unfold smHighPin at h
  cases b <;> simp [rpProgB, rpCsiB, rpRdwrB, rpCfsel] at h <;> omega

theorem low_setInput {p q : Nat} (g : Gpio) (hq : p ≠ q) : (g.setInput q).low p = g.low p := by
  unfold Gpio.low Gpio.isOut
  rw [Gpio.lat_setInput, Gpio.fn_setInput, if_neg hq]

theorem low_setOutput {p q : Nat} (g : Gpio) (hq : p ≠ q) : (g.setOutput q).low p = g.low p := by
  unfold Gpio.low Gpio.isOut
  rw [Gpio.lat_setOutput, Gpio.fn_setOutput, if_neg hq]

theorem low_setInputOutput {g : Gpio} {p q : Nat} (h : g.low p = true) (hq : p ≠ q) :
    ((g.setInput q).setOutput q).low p = true := by
  rw [low_setOutput _ hq, low_setInput _ hq]
  exact h

theorem low_clr_self {g : Gpio} {m : BitVec 32} {p : Nat} (h : g.isOut p = true) (hm : m.getLsbD p = true) :
    (g.clr m).low p = true := by
  unfold Gpio.low
  rw [Gpio.isOut_clr, h, Gpio.lat_clr, hm]
  simp

/-- A round of the pin loop that leaves pin `i` alone. -/
theorem PinsBelow.skip {n i : Nat} {g : Gpio} (h : PinsBelow n i g) (hi : smLowPin n i = false) :
    PinsBelow n (i + 1) g := by
  refine ⟨fun p hp hp' => h.1 p (by omega) hp', fun p hp hl => h.2 p ?_ hl⟩
  have : p ≠ i := by
    rintro rfl
    rw [hi] at hl
    cases hl
  omega

/-- A round that makes pin `i` an output. -/
theorem PinsBelow.drive {n i : Nat} {g g' : Gpio} (h : PinsBelow n i g)
    (hf : ∀ p, p ≠ i → g'.fn p = g.fn p) (hl : ∀ p, p ≠ i → g.low p = true → g'.low p = true)
    (hi : smLowPin n i = true → g'.low i = true) : PinsBelow n (i + 1) g' := by
  refine ⟨fun p hp hp' => ?_, fun p hp hlow => ?_⟩
  · rw [hf p (by omega)]
    exact h.1 p (by omega) hp'
  · by_cases hpi : p = i
    · subst hpi; exact hi hlow
    · exact hl p hpi (h.2 p (by omega) hlow)

section
variable {lv : Gpio → BitVec 32 → Prop} {float : BitVec 32} {n : Nat} (b : Board) (fuel : Nat)
variable {base : List (BitVec n)} {s : World (List (BitVec n))}

/-- What a part of the set-up ends in, unless it fails. -/
def SetUp (base : List (BitVec n)) (X : Gpio → Prop) (r : Int) (t : World (List (BitVec n))) : Prop :=
  t.dev = base ∧ (¬ r < 0 → X t.gpio)

theorem setUp_fail {X : Gpio → Prop} (t : World (List (BitVec n))) (ht : t.dev = base) :
    SetUp base X (-1) t := ⟨ht, fun h => absurd (by decide) h⟩

theorem wp_checkSetUp {X Y : Gpio → Prop} {p k : P Int}
    (h : wp (sys (sampler lv float n)) (fun t => t.dev = base) (SetUp base X) p s)
    (hk : ∀ t : World (List (BitVec n)), t.dev = base → X t.gpio →
      wp (sys (sampler lv float n)) (fun t => t.dev = base) (SetUp base Y) k t) :
    wp (sys (sampler lv float n)) (fun t => t.dev = base) (SetUp base Y) (check p k) s := by
  refine wp_checkOr (wp_mono h fun r t _ ht => ⟨fun _ => ?_, fun hr => hk t ht.1 (ht.2 hr)⟩)
  exact silent_ret ht.1 (setUp_fail t ht.1)

/-- Setting CFSEL on mk2, at the end of `fic_prog_init_smN` and the beginning of `fic_prog_init`. -/
theorem wp_cfsel (hn : n ≤ 16) (hd : s.dev = base) (h : LowPins n s.gpio) :
    wp (sys (sampler lv float n)) (fun t => t.dev = base) (SetUp base (LowPins n))
      (match b with
        | .mk1 => ret 0
        | .mk2 => do
          issue (.setOutput rpCfsel)
          check (ficSetGpio fuel (rpPin rpCfsel)) (ret 0)) s := by
  cases b with
  | mk1 => exact silent_ret hd ⟨hd, fun _ => h⟩
  | mk2 =>
    refine silent_setOutput hd _ (clockEdge_setOutput _ (by decide)) fun t ht et => ?_
    refine silent_checkSet ht fuel _ (by decide) setUp_fail fun u hu eu => ?_
    refine silent_ret hu ⟨hu, fun _ p hp => ?_⟩
    have hb := smLowPin_bounds hn hp
    rw [eu, et]
    refine low_set ?_ ?_
    · rw [low_setOutput _ (by simp only [rpCfsel, rpCd]; omega)]
      exact h p hp
    · exact getLsbD_bit_of_ne (by simp only [rpCfsel, rpCd]; omega)

/-- A round of the pin loop. -/
theorem wp_pinRound (hn : n ≤ 16) {i : Nat} (hi : i < 28) (hd : s.dev = base)
    (h : PinsBelow n i s.gpio) :
    wp (sys (sampler lv float n)) (fun t => t.dev = base) (SetUp base (PinsBelow n (i + 1)))
      (do
        when (smInputPin b i) (issue (.setInput i))
        check (if smHighPin b i then do
            setInputOutput i
            check (ficSetGpio fuel (rpPin i)) (ret 0)
          else ret 0) <|
          if smLowPin n i then do
            setInputOutput i
            check (ficClrGpio fuel (rpPin i)) (ret 0)
          else ret 0) s := by
  have hsel : ∀ g : Gpio, ∀ p, p ≠ i → ((g.setInput i).setOutput i).fn p = g.fn p := by
    intro g p hp
    rw [Gpio.fn_setOutput, if_neg hp, Gpio.fn_setInput, if_neg hp]
  suffices hmain : ∀ t : World (List (BitVec n)), t.dev = base → PinsBelow n i t.gpio →
      wp (sys (sampler lv float n)) (fun t => t.dev = base) (SetUp base (PinsBelow n (i + 1)))
        (check (if smHighPin b i then do
            setInputOutput i
            check (ficSetGpio fuel (rpPin i)) (ret 0)
          else ret 0) <|
          if smLowPin n i then do
            setInputOutput i
            check (ficClrGpio fuel (rpPin i)) (ret 0)
          else ret 0) t by
    cases smInputPin b i with
    | false => exact hmain s hd h
    | true =>
      refine silent_setInput hd i fun t ht et => hmain t ht ⟨fun p hp hp' => ?_, fun p hp hl => ?_⟩
      · rw [et, Gpio.fn_setInput, h.1 p hp hp']
        split <;> rfl
      · rw [et, low_setInput _ (by omega)]
        exact h.2 p hp hl
  intro t ht hp
  cases hl : smLowPin n i with
  | true =>
    have hb := smLowPin_bounds hn hl
    have hh : smHighPin b i = false := by
      cases hh : smHighPin b i with
      | false => rfl
      | true => have := smHighPin_bounds hh; omega
    rw [hh]
    refine silent_setInputOutput ht i (.inr ⟨by simp only [rpCsiB]; omega, ?_⟩) fun u hu eu => ?_
    · refine hp.1 _ ?_ (by decide)
      simp only [rpCsiB]
      omega
    refine silent_checkClr hu fuel _ setUp_fail fun v hv ev => silent_ret hv ⟨hv, fun _ => ?_⟩
    rw [ev, eu]
    refine hp.drive (hsel t.gpio) (fun p hpi hlow => low_clr (low_setInputOutput hlow hpi)) fun _ => ?_
    refine low_clr_self (Gpio.isOut_setInputOutput _ _) ?_
    rw [getLsbD_bit]
    simp [show i < 32 by omega]
  | false =>
    cases hh : smHighPin b i with
    | false => exact silent_ret ht ⟨ht, fun _ => hp.skip hl⟩
    | true =>
      have hb := smHighPin_bounds hh
      have hi7 : i ≠ rpCclk := by simp only [rpCclk]; omega
      refine wp_checkSetUp (X := PinsBelow n (i + 1)) ?_ fun u hu hq => silent_ret hu ⟨hu, fun _ => hq⟩
      refine silent_setInputOutput ht i (.inl hi7) fun u hu eu => ?_
      refine silent_checkSet hu fuel _ (getLsbD_bit_of_ne (Ne.symm hi7)) setUp_fail fun v hv ev =>
        silent_ret hv ⟨hv, fun _ => ?_⟩
      rw [ev, eu]
      refine hp.drive (hsel t.gpio) (fun p hpi hlow => ?_) fun hl' => ?_
      · exact low_set (low_setInputOutput hlow hpi) (getLsbD_bit_of_ne hpi)
      · rw [hl] at hl'
        cases hl'

theorem wp_ficProgInitSm (hn : n ≤ 16) (hd : s.dev = base) :
    wp (sys (sampler lv float n)) (fun t => t.dev = base) (SetUp base (LowPins n))
      (ficProgInitSm b fuel n) s := by
  -- SET_ALL_INPUT
  refine silent_clearSel hd 0 fun s1 h1 e1 => silent_clearSel h1 1 fun s2 h2 e2 =>
    silent_clearSel h2 2 fun s3 h3 e3 => ?_
  have hzero : PinsBelow n 0 s3.gpio := by
    refine ⟨fun p _ hp => ?_, fun p hp _ => absurd hp (Nat.not_lt_zero _)⟩
    rw [e3, e2, e1]
    exact Gpio.fn_allInput _ hp
  -- the pin loop
  refine wp_checkSetUp (X := fun g => PinsBelow n (gpioPinMax + 1) g) ?_ fun t ht hp => ?_
  · refine wp_forEach (fun i t => t.dev = base ∧ PinsBelow n i t.gpio) 0 _ (fun i t _ hi ht => ?_)
      (fun t ht => silent_ret ht.1 ⟨ht.1, fun _ => ?_⟩) ⟨h3, hzero⟩
    · refine wp_mono (wp_pinRound b fuel hn (by simpa using hi) ht.1 ht.2) fun r u _ hu => ?_
      exact ⟨fun _ => silent_ret hu.1 (setUp_fail u hu.1), fun hr => ⟨hu.1, hu.2 hr⟩⟩
    · have h := ht.2
      rwa [Nat.zero_add] at h
  · refine wp_cfsel b fuel hn ht fun p hl => hp.2 p ?_ hl
    have := smLowPin_bounds hn hl
    simp only [gpioPinMax, rpRdwrB]
    omega

/-- CCLK and the data pins are driven low, CSI_B and RDWR_B are outputs. -/
def Selectable (n : Nat) (g : Gpio) : Prop :=
  LowPins n g ∧ g.isOut rpCsiB = true ∧ g.isOut rpRdwrB = true

/-- CCLK, the data pins, CSI_B and RDWR_B are driven low. -/
def Selected (n : Nat) (g : Gpio) : Prop :=
  LowPins n g ∧ g.low rpCsiB = true ∧ g.low rpRdwrB = true

theorem Selectable.set {g : Gpio} (hn : n ≤ 16) (h : Selectable n g) {m : BitVec 32}
    (hm : ∀ p, 7 ≤ p → p < 24 → m.getLsbD p = false) : Selectable n (g.set m) := by
  refine ⟨fun p hp => low_set (h.1 p hp) ?_, h.2.1, h.2.2⟩
  have := smLowPin_bounds hn hp
  exact hm p this.1 this.2

theorem Selectable.clr {g : Gpio} (h : Selectable n g) {m : BitVec 32} (h26 : m.getLsbD rpCsiB = true)
    (h27 : m.getLsbD rpRdwrB = true) : Selected n (g.clr m) :=
  ⟨fun p hp => low_clr (h.1 p hp), low_clr_self h.2.1 h26, low_clr_self h.2.2 h27⟩

/-- The masks of `fic_prog_init` do not reach CCLK and the data pins. -/
theorem pinsProgCsiRdwr_low (p : Nat) (h : 7 ≤ p) (h' : p < 24) : pinsProgCsiRdwr.getLsbD p = false := by
  unfold pinsProgCsiRdwr
  rw [BitVec.getLsbD_or, BitVec.getLsbD_or, getLsbD_bit_of_ne, getLsbD_bit_of_ne, getLsbD_bit_of_ne]
  · rfl
  all_goals simp only [rpRdwrB, rpCsiB, rpProgB]; omega

theorem progB_low (p : Nat) (h : 7 ≤ p) (_ : p < 24) : (rpPin rpProgB).getLsbD p = false :=
  getLsbD_bit_of_ne (by simp only [rpProgB]; omega)

theorem wp_awaitInit {J Q : World (List (BitVec n)) → Prop} (hJ : J s) (hQ : Q s) :
    wp (sys (sampler lv float n)) J (fun _ t => Q t) (awaitInit fuel) s := by
  refine wp_loop (fun t => t = s) fuel (fun t ht => ?_) rfl
  subst ht
  refine wp_get sampler_still hJ fun v _ => ?_
  split
  · exact wp_get sampler_still hJ fun w _ => wp_retStill sampler_still hJ rfl
  · exact wp_retStill sampler_still hJ (wp_retStill sampler_still hJ hQ)

theorem wp_ficProgInit (hn : n ≤ 16) (pm : ProgMode) (hd : s.dev = base) (h : LowPins n s.gpio) :
    wp (sys (sampler lv float n)) (fun t => t.dev = base) (SetUp base (Selected n))
      (ficProgInit b fuel pm) s := by
  refine wp_checkSetUp (wp_cfsel b fuel hn hd h) fun s0 h0 hl => ?_
  refine silent_setInputOutput h0 _ (.inl (by decide)) fun s1 h1 e1 => ?_
  refine silent_setInputOutput h1 _ (.inl (by decide)) fun s2 h2 e2 => ?_
  refine silent_setInputOutput h2 _ (.inl (by decide)) fun s3 h3 e3 => ?_
  have hsel : Selectable n s3.gpio := by
    refine ⟨fun p hp => ?_, ?_, ?_⟩
    · have := smLowPin_bounds hn hp
      rw [e3, e2, e1]
      refine low_setInputOutput (low_setInputOutput (low_setInputOutput (hl p hp) ?_) ?_) ?_
      all_goals simp only [rpRdwrB, rpCsiB, rpProgB]; omega
    · rw [e3, e2]
      unfold Gpio.isOut
      rw [Gpio.fn_setOutput, if_neg (by decide), Gpio.fn_setInput, if_neg (by decide)]
      exact Gpio.isOut_setInputOutput _ _
    · rw [e3]
      exact Gpio.isOut_setInputOutput _ _
  refine silent_checkSet h3 fuel _ (by decide) setUp_fail fun s4 h4 e4 => ?_
  have hsel4 : Selectable n s4.gpio := by rw [e4]; exact hsel.set hn pinsProgCsiRdwr_low
  cases pm with
  | pr =>
    refine silent_checkClr h4 fuel _ setUp_fail fun s5 h5 e5 => silent_ret h5 ⟨h5, fun _ => ?_⟩
    rw [e5]
    exact hsel4.clr (by decide) (by decide)
  | normal =>
    refine silent_checkSet h4 fuel _ (by decide) setUp_fail fun s5 h5 e5 => ?_
    refine silent_checkClr h5 fuel _ setUp_fail fun s6 h6 e6 => ?_
    refine silent_checkSet h6 fuel _ (by decide) setUp_fail fun s7 h7 e7 => ?_
    have hsel5 : Selectable n s5.gpio := by rw [e5]; exact hsel4.set hn pinsProgCsiRdwr_low
    have hsel7 : Selected n s7.gpio := by
      have h6 : Selected n s6.gpio := by rw [e6]; exact hsel5.clr (by decide) (by decide)
      rw [e7]
      refine ⟨fun p hp => low_set (h6.1 p hp) ?_, low_set h6.2.1 (by decide), low_set h6.2.2 (by decide)⟩
      have := smLowPin_bounds hn hp
      exact progB_low p this.1 this.2
    refine wp_checkOr (wp_mono (wp_awaitInit fuel h7 (Q := fun t => t.dev = base ∧ Selected n t.gpio)
      ⟨h7, hsel7⟩) fun r t _ ht => ⟨fun _ => silent_ret ht.1 (setUp_fail t ht.1), fun _ => ?_⟩)
    refine wp_get sampler_still ht.1 fun v _ => ?_
    split
    · exact silent_ret ht.1 (setUp_fail t ht.1)
    · exact silent_ret ht.1 ⟨ht.1, fun _ => ht.2⟩

/-- **The set-up.**  Whatever the pins were, nothing is sampled before the data loop, and the loop
finds CCLK and the data pins driven low. -/
theorem wp_progSetup (hn : n ≤ 16) (pm : ProgMode) (hd : s.dev = base) :
    wp (sys (sampler lv float n)) (fun t => t.dev = base) (SetUp base (Clocked n 0#32 false))
      (progSetup b fuel n pm) s := by
  refine wp_checkSetUp (wp_ficProgInitSm b fuel hn hd) fun s1 h1 hl => ?_
  refine wp_checkSetUp (wp_ficProgInit b fuel hn pm h1 hl) fun s2 h2 hsel => ?_
  refine silent_checkClr h2 fuel _ setUp_fail fun s3 h3 e3 => silent_ret h3 ⟨h3, fun _ => ?_⟩
  have hlow : ∀ p, smLowPin n p = true → s3.gpio.low p = true := fun p hp => by
    rw [e3]
    exact low_clr (hsel.1 p hp)
  have hcd : ∀ j, j < n → s3.gpio.low (rpCd j) = true := fun j hj => hlow _ (by
    unfold smLowPin
    simp only [Bool.or_eq_true, Bool.and_eq_true, decide_eq_true_eq]
    exact .inr (by simp only [rpCd]; omega))
  have hcclk := hlow rpCclk rfl
  unfold Gpio.low at hcclk hcd
  simp only [Bool.and_eq_true, Bool.not_eq_true'] at hcclk hcd
  refine ⟨?_, ?_, hcclk.1, hcclk.2, fun j hj => (hcd j hj).1, fun j hj => ?_⟩
  · rw [e3]; exact low_clr hsel.2.1
  · rw [e3]; exact low_clr hsel.2.2
  · rw [(hcd j hj).2, BitVec.getLsbD_zero]

end

/-! ## A run through the set-up -/

/-- INIT and DONE are inputs. -/
def StatusInputs (g : Gpio) : Prop := g.fn rpInit = 0#3 ∧ g.fn rpDone = 0#3

theorem StatusInputs.setInputOutput {g : Gpio} (h : StatusInputs g) {p : Nat} (h4 : p ≠ rpInit)
    (h6 : p ≠ rpDone) : StatusInputs ((g.setInput p).setOutput p) := by
  refine ⟨?_, ?_⟩
  · rw [Gpio.fn_setOutput, if_neg (Ne.symm h4), Gpio.fn_setInput, if_neg (Ne.symm h4), h.1]
  · rw [Gpio.fn_setOutput, if_neg (Ne.symm h6), Gpio.fn_setInput, if_neg (Ne.symm h6), h.2]

theorem StatusInputs.setInput {g : Gpio} (h : StatusInputs g) (p : Nat) : StatusInputs (g.setInput p) := by
  refine ⟨?_, ?_⟩
  · rw [Gpio.fn_setInput, h.1]; split <;> rfl
  · rw [Gpio.fn_setInput, h.2]; split <;> rfl

/-- A reading with INIT high and DONE low. -/
theorem StatusInputs.readsBack {g : Gpio} (h : StatusInputs g) :
    ReadsBack g ((g.latch ||| rpPin rpInit) &&& ~~~rpPin rpDone) := by
  intro p hp ho
  have h4 : p ≠ rpInit := by
    rintro rfl
    unfold Gpio.isOut at ho
    rw [h.1] at ho
    cases ho
  have h6 : p ≠ rpDone := by
    rintro rfl
    unfold Gpio.isOut at ho
    rw [h.2] at ho
    cases ho
  rw [BitVec.getLsbD_and, BitVec.getLsbD_or, BitVec.getLsbD_not, getLsbD_bit_of_ne h4, getLsbD_bit_of_ne h6,
    decide_eq_true hp]
  simp [Gpio.lat]

theorem getPin_init (w : BitVec 32) :
    (getPin ((w ||| rpPin rpInit) &&& ~~~rpPin rpDone) rpInit == 0#32) = false := by
  rw [getPin_beq_zero _ (by decide), BitVec.getLsbD_and, BitVec.getLsbD_or,
    show (rpPin rpInit).getLsbD rpInit = true from rfl, Bool.or_true]
  rfl

theorem getPin_done (w : BitVec 32) :
    (getPin ((w ||| rpPin rpInit) &&& ~~~rpPin rpDone) rpDone == 1#32) = false := by
  rw [getPin_beq_one _ (by decide), BitVec.getLsbD_and,
    show (~~~rpPin rpDone).getLsbD rpDone = false from rfl, Bool.and_false]

/-- Only the function selects matter. -/
theorem StatusInputs.congr {g g' : Gpio} (h : StatusInputs g) (hf : g'.fsel = g.fsel) :
    StatusInputs g' := by
  unfold StatusInputs Gpio.fn at h ⊢
  rw [hf]
  exact h

section
variable {float : BitVec 32} {n : Nat} (b : Board) (fuel : Nat)
variable {s : World (List (BitVec n))} {α : Type} {Q : α → World (List (BitVec n)) → Prop}

/-- The sampler whose driven pins read back as driven. -/
abbrev samplerRb (float : BitVec 32) (n : Nat) : Device (List (BitVec n)) := sampler ReadsBack float n

theorem samplerRb_readsLatch : (samplerRb float n).ReadsLatch := fun _ _ _ _ _ => rfl

theorem can_setInputOutput (p : Nat) {k : Unit → P α}
    (hk : ∀ t : World (List (BitVec n)), t.gpio = (s.gpio.setInput p).setOutput p →
      can (sys (samplerRb float n)) Q (k ()) t) :
    can (sys (samplerRb float n)) Q (setInputOutput p >>= k) s :=
  can_issue (o := .setInput p) () rfl (can_issue (o := .setOutput p) () rfl (hk _ rfl))

/-- What a part of the set-up can end in. -/
def CanSetUp (r : Int) (t : World (List (BitVec n))) : Prop := ¬ r < 0 ∧ StatusInputs t.gpio

theorem can_checkSetUp {p k : P Int} (h : can (sys (samplerRb float n)) CanSetUp p s)
    (hk : ∀ t : World (List (BitVec n)), StatusInputs t.gpio → can (sys (samplerRb float n)) CanSetUp k t) :
    can (sys (samplerRb float n)) CanSetUp (check p k) s :=
  can_checkOr (can_mono h fun _ t ht => ⟨ht.1, hk t ht.2⟩)

theorem can_cfsel (h : StatusInputs s.gpio) :
    can (sys (samplerRb float n)) CanSetUp
      (match b with
        | .mk1 => ret 0
        | .mk2 => do
          issue (.setOutput rpCfsel)
          check (ficSetGpio (fuel + 1) (rpPin rpCfsel)) (ret 0)) s := by
  cases b with
  | mk1 => exact ⟨by decide, h⟩
  | mk2 =>
    refine can_issue (o := .setOutput rpCfsel) () rfl
      (can_checkSet fuel samplerRb_readsLatch _ ⟨by decide, ?_⟩)
    refine ⟨?_, ?_⟩
    · exact (Gpio.fn_setOutput _ _ _).trans ((if_neg (by decide)).trans h.1)
    · exact (Gpio.fn_setOutput _ _ _).trans ((if_neg (by decide)).trans h.2)

theorem can_pinRound (i : Nat) (h : StatusInputs s.gpio) :
    can (sys (samplerRb float n)) CanSetUp
      (do
        when (smInputPin b i) (issue (.setInput i))
        check (if smHighPin b i then do
            setInputOutput i
            check (ficSetGpio (fuel + 1) (rpPin i)) (ret 0)
          else ret 0) <|
          if smLowPin n i then do
            setInputOutput i
            check (ficClrGpio (fuel + 1) (rpPin i)) (ret 0)
          else ret 0) s := by
  suffices hmain : ∀ t : World (List (BitVec n)), StatusInputs t.gpio →
      can (sys (samplerRb float n)) CanSetUp
        (check (if smHighPin b i then do
            setInputOutput i
            check (ficSetGpio (fuel + 1) (rpPin i)) (ret 0)
          else ret 0) <|
          if smLowPin n i then do
            setInputOutput i
            check (ficClrGpio (fuel + 1) (rpPin i)) (ret 0)
          else ret 0) t by
    cases smInputPin b i with
    | false => exact hmain s h
    | true => exact can_issue (o := .setInput i) () rfl (hmain _ (h.setInput i))
  intro t ht
  refine can_checkSetUp ?_ fun u hu => ?_
  · split
    · next hh =>
      refine can_setInputOutput i fun v ev => can_checkSet fuel samplerRb_readsLatch _ ⟨by decide, ?_⟩
      show StatusInputs v.gpio
      rw [ev]
      refine ht.setInputOutput ?_ ?_ <;> rintro rfl <;> cases b <;> cases hh
    · exact ⟨by decide, ht⟩
  · split
    · next hl =>
      refine can_setInputOutput i fun v ev => can_checkClr fuel samplerRb_readsLatch _ ⟨by decide, ?_⟩
      show StatusInputs v.gpio
      rw [ev]
      refine hu.setInputOutput ?_ ?_ <;> rintro rfl <;> simp [smLowPin] at hl
    · exact ⟨by decide, hu⟩

theorem can_ficProgInitSm : can (sys (samplerRb float n)) CanSetUp (ficProgInitSm b (fuel + 1) n) s := by
  refine can_issue (o := .clearSel 0) () rfl <| can_issue (o := .clearSel 1) () rfl <|
    can_issue (o := .clearSel 2) () rfl <| can_checkSetUp ?_ fun t ht => can_cfsel b fuel ht
  refine can_forEach (R := CanSetUp) (fun _ t => StatusInputs t.gpio) 0 _ (fun i t ht => ?_)
    (fun t ht => ?_) ?_
  · exact can_pinRound b fuel i ht
  · exact ⟨by decide, ht⟩
  · exact ⟨Gpio.fn_allInput _ (by decide), Gpio.fn_allInput _ (by decide)⟩

theorem can_awaitInit (h : StatusInputs s.gpio) :
    can (sys (samplerRb float n)) CanSetUp (awaitInit (fuel + 1)) s := by
  refine can_loop (can_get _ h.readsBack ?_)
  rw [getPin_init]
  exact ⟨0, rfl, by decide, h⟩

theorem can_ficProgInit (pm : ProgMode) (h : StatusInputs s.gpio) :
    can (sys (samplerRb float n)) CanSetUp (ficProgInit b (fuel + 1) pm) s := by
  refine can_checkSetUp (can_cfsel b fuel h) fun t ht => ?_
  refine can_setInputOutput _ fun s1 e1 => can_setInputOutput _ fun s2 e2 =>
    can_setInputOutput _ fun s3 e3 => ?_
  have h3 : StatusInputs s3.gpio := by
    rw [e3, e2, e1]
    exact ((ht.setInputOutput (by decide) (by decide)).setInputOutput (by decide)
      (by decide)).setInputOutput (by decide) (by decide)
  refine can_checkSet fuel samplerRb_readsLatch _ ?_
  cases pm with
  | pr => exact can_checkClr fuel samplerRb_readsLatch _ ⟨by decide, h3.congr rfl⟩
  | normal =>
    refine can_checkSet fuel samplerRb_readsLatch _ <| can_checkClr fuel samplerRb_readsLatch _ <|
      can_checkSet fuel samplerRb_readsLatch _ ?_
    refine can_checkSetUp (can_awaitInit fuel (h3.congr rfl)) fun t ht => can_get _ ht.readsBack ?_
    rw [getPin_done]
    exact ⟨by decide, ht⟩

/-- The set-up can succeed. -/
theorem can_progSetup (pm : ProgMode) :
    can (sys (samplerRb float n)) CanSetUp (progSetup b (fuel + 1) n pm) s := by
  refine can_checkSetUp (can_ficProgInitSm b fuel) fun t ht => can_checkSetUp (can_ficProgInit b fuel pm ht)
    fun u hu => can_checkClr fuel samplerRb_readsLatch _ ⟨by decide, hu⟩

/-- A function up to its loop can get there. -/
theorem can_progLoad (smap : ProgSmapMode) (size : Nat) (pm : ProgMode) {body : P (Option Nat)}
    {R : Option Nat → World (List (BitVec n)) → Prop}
    (hbody : ∀ t : World (List (BitVec n)), StatusInputs t.gpio → can (sys (samplerRb float n)) R body t) :
    can (sys (samplerRb float n)) R (progLoad b (fuel + 1) smap n body size pm) s :=
  can_progBegin smap size pm <| can_checkOr <| can_mono (can_progSetup b fuel pm)
    fun _ t ht => ⟨ht.1, can_time (hbody t ht.2)⟩

end

end Libfic2
