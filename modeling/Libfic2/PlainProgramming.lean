import Libfic2.FpgaSampling
import Libfic2.ProgRounds

/-!
# The plain data loops deliver the bitstream

`Sampled d c l t`: the pins carry `d` with CCLK at `c`, and the FPGA has sampled `l`.
Each operation of a round has one lemma on `Sampled`; a round adds the word of that
round, a repeated word included, and so a loop adds all its words in order
(`wp_plainLoop8`, `wp_plainLoop16`).

* `plain_delivers`: `fic_prog_sm8` and `fic_prog_sm16`, from any state of the pins.
-/

namespace Libfic2

open Driver Prog Sys

/-! ## One operation -/

/-- The data pins of `mask`, and none of CCLK, CSI_B and RDWR_B. -/
structure DataMask (n : Nat) (mask : BitVec 32) : Prop where
  data : ∀ j, j < n → mask.getLsbD (rpCd j) = true
  cclk : mask.getLsbD rpCclk = false
  csiB : mask.getLsbD rpCsiB = false
  rdwrB : mask.getLsbD rpRdwrB = false

theorem dataMask8 : DataMask 8 mask8 := ⟨by decide, rfl, rfl, rfl⟩
theorem dataMask16 : DataMask 16 mask16 := ⟨by decide, rfl, rfl, rfl⟩

/-- The pins carry `d` with CCLK at `c`, the FPGA has sampled `l`. -/
def Sampled {n : Nat} (d : BitVec 32) (c : Bool) (l : List (BitVec n))
    (t : World (List (BitVec n))) : Prop :=
  t.dev = l ∧ Clocked n d c t.gpio

section
variable {lv : Gpio → BitVec 32 → Prop} {float : BitVec 32} {n : Nat} {l : List (BitVec n)}
variable {d d' mask : BitVec 32} {c : Bool} {s : World (List (BitVec n))}

theorem rpCd_ne_cclk (j : Nat) : rpCd j ≠ rpCclk := by simp only [rpCd, rpCclk]; omega

/-- `CLR_GPIO = RP_PIN_CCLK` -/
theorem Sampled.fall (h : Sampled d c l s) :
    Sampled d false l (s.touch (sampler lv float n) (s.gpio.clr (rpPin rpCclk))) := by
  rw [touch_silent s (clockEdge_clr _ _)]
  refine ⟨h.1, h.2.clr rfl fun j _ => ?_⟩
  rw [getLsbD_bit_of_ne (rpCd_ne_cclk j)]
  simp

/-- `SET_GPIO = RP_PIN_CCLK`: a sample, if CCLK was low. -/
theorem Sampled.rise (h : Sampled d c l s) :
    Sampled d true (l ++ if c then [] else [dataWord n d])
      (s.touch (sampler lv float n) (s.gpio.set (rpPin rpCclk))) := by
  have h' : Clocked n d (c || (rpPin rpCclk).getLsbD rpCclk) (s.gpio.set (rpPin rpCclk)) :=
    h.2.set rfl rfl fun j _ => by rw [getLsbD_bit_of_ne (rpCd_ne_cclk j), Bool.or_false]
  rw [h.2.touch_set h']
  rw [show (rpPin rpCclk).getLsbD rpCclk = true from rfl, Bool.or_true] at h'
  refine ⟨?_, h'⟩
  rw [h.1]
  cases c <;> rfl

variable (hm : DataMask n mask)
include hm

/-- `CLR_GPIO = (~d & mask) | RP_PIN_CCLK` -/
theorem Sampled.clear (h : Sampled d' c l s) :
    Sampled (d' &&& d) false l
      (s.touch (sampler lv float n) (s.gpio.clr ((~~~d &&& mask) ||| rpPin rpCclk))) := by
  rw [touch_silent s (clockEdge_clr _ _)]
  refine ⟨h.1, h.2.clr ?_ fun j hj => ?_⟩
  · rw [BitVec.getLsbD_or, show (rpPin rpCclk).getLsbD rpCclk = true from rfl, Bool.or_true]
  · have hj32 : rpCd j < 32 := by
      by_contra hge
      have := hm.data j hj
      rw [BitVec.getLsbD_of_ge _ _ (by omega)] at this
      cases this
    rw [BitVec.getLsbD_or, BitVec.getLsbD_and, BitVec.getLsbD_and, BitVec.getLsbD_not, hm.data j hj,
      getLsbD_bit_of_ne (rpCd_ne_cclk j), decide_eq_true hj32]
    cases d.getLsbD (rpCd j) <;> simp

/-- `SET_GPIO = d & mask` -/
theorem Sampled.drive (h : Sampled (d' &&& d) c l s) :
    Sampled d c l (s.touch (sampler lv float n) (s.gpio.set (d &&& mask))) := by
  have hc : (d &&& mask).getLsbD rpCclk = false := by rw [BitVec.getLsbD_and, hm.cclk, Bool.and_false]
  rw [touch_silent s (clockEdge_set hc)]
  refine ⟨h.1, ?_⟩
  have h' := h.2.set (v := d &&& mask) (e := d) (by rw [BitVec.getLsbD_and, hm.csiB, Bool.and_false])
    (by rw [BitVec.getLsbD_and, hm.rdwrB, Bool.and_false]) fun j hj => by
      rw [BitVec.getLsbD_and, BitVec.getLsbD_and, hm.data j hj]
      cases d.getLsbD (rpCd j) <;> simp
  rwa [hc, Bool.or_false] at h'

/-- `SET_GPIO = (d & mask) | RP_PIN_CCLK`: a sample, if CCLK was low. -/
theorem Sampled.clock (h : Sampled d c l s) :
    Sampled d true (l ++ if c then [] else [dataWord n d])
      (s.touch (sampler lv float n) (s.gpio.set ((d &&& mask) ||| rpPin rpCclk))) := by
  have hc : ((d &&& mask) ||| rpPin rpCclk).getLsbD rpCclk = true := by
    rw [BitVec.getLsbD_or, show (rpPin rpCclk).getLsbD rpCclk = true from rfl, Bool.or_true]
  have h' : Clocked n d (c || ((d &&& mask) ||| rpPin rpCclk).getLsbD rpCclk)
      (s.gpio.set ((d &&& mask) ||| rpPin rpCclk)) := by
    refine h.2.set ?_ ?_ fun j hj => ?_
    · rw [BitVec.getLsbD_or, BitVec.getLsbD_and, hm.csiB, Bool.and_false]; rfl
    · rw [BitVec.getLsbD_or, BitVec.getLsbD_and, hm.rdwrB, Bool.and_false]; rfl
    · rw [BitVec.getLsbD_or, BitVec.getLsbD_and, hm.data j hj, getLsbD_bit_of_ne (rpCd_ne_cclk j)]
      cases d.getLsbD (rpCd j) <;> simp
  rw [h.2.touch_set h', hc]
  rw [hc, Bool.or_true] at h'
  refine ⟨?_, h'⟩
  rw [h.1]
  cases c <;> rfl

end

/-! ## One round -/

section
variable {lv : Gpio → BitVec 32 → Prop} {float : BitVec 32} (fuel : Nat) {d d' : BitVec 32} {c : Bool}

theorem wp_plainRound8 {l : List (BitVec 8)} {s : World (List (BitVec 8))} (h : Sampled d' c l s) :
    wp (sys (sampler lv float 8)) anyTime (fun _ t => Sampled d true (l ++ [dataWord 8 d]) t)
      (plainRound8 fuel d d') s := by
  unfold plainRound8
  split
  · next hd =>
    subst hd
    refine wp_bind (wp_ficClrGpioFast sampler_still fuel trivial _ trivial ?_)
    refine wp_set sampler_still trivial _ (wp_retStill sampler_still trivial ?_)
    exact (Sampled.fall h).rise
  · refine wp_clr sampler_still trivial _ <| wp_set sampler_still trivial _ <|
      wp_set sampler_still trivial _ <| wp_retStill sampler_still trivial ?_
    exact ((h.clear dataMask8).drive dataMask8).clock dataMask8

theorem wp_plainRound16 {l : List (BitVec 16)} {s : World (List (BitVec 16))} (h : Sampled d' c l s) :
    wp (sys (sampler lv float 16)) anyTime (fun _ t => Sampled d true (l ++ [dataWord 16 d]) t)
      (plainRound16 fuel d d') s := by
  unfold plainRound16
  split
  · next hd =>
    subst hd
    refine wp_bind (wp_ficClrGpioFast sampler_still fuel trivial _ trivial ?_)
    refine wp_bind (wp_ficSetGpioFast sampler_still fuel trivial _ trivial ?_)
    exact wp_retStill sampler_still trivial (Sampled.fall h).rise
  · refine wp_bind (wp_ficClrGpio sampler_still fuel trivial _ trivial fun _ => ?_)
    refine wp_bind (wp_ficSetGpio sampler_still fuel trivial _ trivial fun _ => ?_)
    refine wp_bind (wp_ficSetGpio sampler_still fuel trivial _ trivial fun _ => ?_)
    refine wp_retStill sampler_still trivial ?_
    exact ((h.clear dataMask16).drive dataMask16).clock dataMask16

/-- The end of a round leaves the pins alone. -/
theorem wp_plainRoundEnd {n : Nat} {l : List (BitVec n)} {s : World (List (BitVec n))} (k : Nat)
    (h : Sampled d c l s) :
    wp (sys (sampler lv float n)) anyTime (fun _ t => Sampled d c l t) (plainRoundEnd k) s := by
  refine wp_stat sampler_still trivial _ <| wp_time sampler_still trivial fun _ =>
    wp_get sampler_still trivial fun v _ => ?_
  split <;> exact wp_retStill sampler_still trivial h

end

/-! ## The loops -/

/-- The word that x16 makes of a pair of bytes: `data[2k] | data[2k+1] << 8`. -/
def pairAt (data : Mem) (k : Nat) : BitVec 16 :=
  (data (2 * k)).setWidth 16 ||| ((data (2 * k + 1)).setWidth 16 <<< 8)

theorem dataWord_word8 (data : Mem) (i : Nat) : dataWord 8 (word8 data i) = data i := by
  apply BitVec.eq_of_getLsbD_eq
  intro j hj
  unfold dataWord word8
  rw [BitVec.getLsbD_extractLsb', BitVec.getLsbD_shiftLeft, BitVec.getLsbD_setWidth]
  simp [hj, show 8 + j < 32 by omega, show j < 32 by omega]

theorem dataWord_word16 (data : Mem) (k : Nat) : dataWord 16 (word16 data (2 * k)) = pairAt data k := by
  apply BitVec.eq_of_getLsbD_eq
  intro j hj
  unfold dataWord word16 pairAt
  rw [BitVec.getLsbD_extractLsb', BitVec.getLsbD_shiftLeft, BitVec.getLsbD_or, BitVec.getLsbD_or,
    BitVec.getLsbD_shiftLeft, BitVec.getLsbD_shiftLeft, BitVec.getLsbD_setWidth, BitVec.getLsbD_setWidth,
    BitVec.getLsbD_setWidth, BitVec.getLsbD_setWidth]
  rw [show 8 + j - 8 = j by omega, Bool.or_comm]
  simp [hj, show 8 + j <
    32 by omega, show j < 32 by omega, show j - 8 < 32 by omega, show j - 8 < 16 by omega]

section
variable {lv : Gpio → BitVec 32 → Prop} {float : BitVec 32} (fuel : Nat)

theorem wp_plainLoop8 (data : Mem) (n i : Nat) {d' : BitVec 32} {c : Bool} {l : List (BitVec 8)}
    {s : World (List (BitVec 8))} (h : Sampled d' c l s) :
    wp (sys (sampler lv float 8)) anyTime
      (fun r t => ∀ k, r = some k → k = i + n ∧ t.dev = l ++ (List.range' i n).map data)
      (plainLoop8 fuel data n i d') s := by
  induction n generalizing i d' c l s with
  | zero =>
    refine wp_retStill sampler_still trivial ?_
    rintro k ⟨rfl⟩
    exact ⟨rfl, by rw [h.1]; simp⟩
  | succ n ih =>
    have stop : ∀ t : World (List (BitVec 8)), wp (sys (sampler lv float 8)) anyTime
        (fun r t => ∀ k, r = some k →
          k = i + (n + 1) ∧ t.dev = l ++ (List.range' i (n + 1)).map data) (ret none) t :=
      fun t => wp_retStill sampler_still trivial (fun k hk => nomatch hk)
    refine wp_checkOr (wp_mono (wp_plainRound8 fuel h) fun _ t _ ht => ⟨fun _ => stop t, fun _ => ?_⟩)
    refine wp_checkOr (wp_mono (wp_plainRoundEnd 1 ht) fun _ u _ hu => ⟨fun _ => stop u, fun _ => ?_⟩)
    refine wp_mono (ih (i + 1) hu) fun r v _ hv k hk => ?_
    obtain ⟨h1, h2⟩ := hv k hk
    refine ⟨by omega, ?_⟩
    rw [h2, dataWord_word8, List.append_assoc, List.range'_succ]
    rfl

theorem wp_plainLoop16 (data : Mem) (n i : Nat) {d' : BitVec 32} {c : Bool} {l : List (BitVec 16)}
    {s : World (List (BitVec 16))} (h : Sampled d' c l s) :
    wp (sys (sampler lv float 16)) anyTime
      (fun r t => ∀ k, r = some k → k = 2 * (i + n) ∧ t.dev = l ++ (List.range' i n).map (pairAt data))
      (plainLoop16 fuel data n (2 * i) d') s := by
  induction n generalizing i d' c l s with
  | zero =>
    refine wp_retStill sampler_still trivial ?_
    rintro k ⟨rfl⟩
    exact ⟨rfl, by rw [h.1]; simp⟩
  | succ n ih =>
    have stop : ∀ t : World (List (BitVec 16)), wp (sys (sampler lv float 16)) anyTime
        (fun r t => ∀ k, r = some k →
          k = 2 * (i + (n + 1)) ∧ t.dev = l ++ (List.range' i (n + 1)).map (pairAt data)) (ret none) t :=
      fun t => wp_retStill sampler_still trivial (fun k hk => nomatch hk)
    refine wp_checkOr (wp_mono (wp_plainRound16 fuel h) fun _ t _ ht => ⟨fun _ => stop t, fun _ => ?_⟩)
    refine wp_checkOr (wp_mono (wp_plainRoundEnd 2 ht) fun _ u _ hu => ⟨fun _ => stop u, fun _ => ?_⟩)
    rw [show 2 * i + 2 = 2 * (i + 1) by omega]
    refine wp_mono (ih (i + 1) hu) fun r v _ hv k hk => ?_
    obtain ⟨h1, h2⟩ := hv k hk
    refine ⟨by omega, ?_⟩
    rw [h2, dataWord_word16, List.append_assoc, List.range'_succ]
    rfl

end

/-! ## From entry to the end of the loop -/

section
variable {lv : Gpio → BitVec 32 → Prop} {float : BitVec 32} {n : Nat} (b : Board) (fuel : Nat)
variable {s : World (List (BitVec n))}

/-- Nothing is sampled before the loop. -/
theorem wp_entry (hn : n ≤ 16) (smap : ProgSmapMode) (size : Nat) (pm : ProgMode) :
    wp (sys (sampler lv float n)) (fun t => t.dev = s.dev) (SetUp s.dev (Clocked n 0#32 false))
      (progBegin smap size pm >>= fun _ => progSetup b fuel n pm) s :=
  wp_progBegin sampler_still smap size pm (fun _ => rfl) fun _ => wp_progSetup b fuel hn pm rfl

/-- A programming function up to the end of its loop. -/
theorem wp_progLoad (hn : n ≤ 16) (smap : ProgSmapMode) (size : Nat) (pm : ProgMode)
    {body : P (Option Nat)} {R : Option Nat → World (List (BitVec n)) → Prop}
    (hbody : ∀ t, Sampled 0#32 false s.dev t → wp (sys (sampler lv float n)) anyTime R body t)
    (hnone : ∀ t, R none t) :
    wp (sys (sampler lv float n)) anyTime R (progLoad b fuel smap n body size pm) s := by
  refine wp_progBegin sampler_still smap size pm (fun _ => trivial) fun _ => wp_checkOr ?_
  refine wp_mono (wp_weaken (wp_progSetup b fuel hn pm rfl) fun _ _ => trivial) fun r u _ hu => ?_
  refine ⟨fun _ => wp_retStill sampler_still trivial (hnone u), fun hr => ?_⟩
  exact wp_time sampler_still trivial fun _ => hbody u ⟨hu.1, hu.2 hr⟩

end

/-! ## The other pins -/

/-- Only CCLK and the `n` data pins are set and cleared. -/
def ClocksOnly (n : Nat) : Op → Prop
  | .set v => ∀ p, v.getLsbD p = true → smLowPin n p = true
  | .clr v => ∀ p, v.getLsbD p = true → smLowPin n p = true
  | .setInput _ => False
  | .setOutput _ => False
  | .clearSel _ => False
  | _ => True

/-- The function selects are those of `g`, and so is the latch of every pin but CCLK and the data
pins. -/
def OthersKept (n : Nat) (g g' : Gpio) : Prop :=
  g'.fsel = g.fsel ∧ ∀ p, smLowPin n p = false → g'.lat p = g.lat p

theorem keeps_others {D : Type} {dev : Device D} (n : Nat) (g : Gpio) :
    KeepsOps (sys dev) (ClocksOnly n) fun t => OthersKept n g t.gpio := by
  refine keepsOps_gpio fun o g' ho h => ?_
  have hbit : ∀ v : BitVec 32, (∀ p, v.getLsbD p = true → smLowPin n p = true) →
      ∀ p, smLowPin n p = false → v.getLsbD p = false := by
    intro v hv p hp
    cases hb : v.getLsbD p with
    | false => rfl
    | true => rw [hv p hb] at hp; cases hp
  cases o with
  | set v =>
    refine ⟨h.1, fun p hp => ?_⟩
    show (g'.set v).lat p = g.lat p
    rw [Gpio.lat_set, hbit v ho p hp, Bool.or_false, h.2 p hp]
  | clr v =>
    refine ⟨h.1, fun p hp => ?_⟩
    show (g'.clr v).lat p = g.lat p
    rw [Gpio.lat_clr, hbit v ho p hp, Bool.not_false, Bool.and_true, h.2 p hp]
  | setInput p => exact ho.elim
  | setOutput p => exact ho.elim
  | clearSel r => exact ho.elim
  | get => exact h
  | time => exact h
  | clock => exact h
  | stat f => exact h

/-- The masks of the loops: CCLK, with or without data. -/
structure LoopMask (n : Nat) (mask : BitVec 32) : Prop where
  bits : ∀ p, mask.getLsbD p = true → smLowPin n p = true

theorem Within.loopMask {n : Nat} {mask : BitVec 32} (h : Within (fun p => smLowPin n p = true) mask) :
    LoopMask n mask :=
  ⟨fun p hp => h p (BitVec.lt_of_getLsbD hp) hp⟩

theorem clocks_body (fuel : Nat) (f : ProgFn) (data : Mem) (size : Nat) :
    Ops (ClocksOnly f.lanes) (f.body fuel data size) :=
  ops_body ⟨trivial, trivial, fun _ hv => hv.loopMask.bits, fun _ hv => hv.loopMask.bits⟩
    (lowPin_cclk f) (fun _ => trivial) data f (within_lowPins f) size

/-! ## Result -/

/-- What the FPGA samples in a run of a programming function: `words` from entry to the end of the
data loop `body`, none of them in the set-up; and the loop changes CCLK and data pins only. -/
structure Delivers {n : Nat} (dev : Device (List (BitVec n))) (setup : P Int) (load body : P (Option Nat))
    (words : List (BitVec n)) : Prop where
  setup : ∀ s p t, (sys dev).Run (setup, s) (p, t) → t.dev = s.dev
  load : ∀ s i t, (sys dev).Run (load, s) (ret (some i), t) → t.dev = s.dev ++ words
  pins : ∀ s p t, (sys dev).Run (body, s) (p, t) → OthersKept n s.gpio t.gpio

/-- It is enough to know the loop. -/
theorem delivers_of {lv : Gpio → BitVec 32 → Prop} {float : BitVec 32} {n : Nat} (b : Board) (fuel : Nat)
    (hn : n ≤ 16) (smap : ProgSmapMode) (size : Nat) (pm : ProgMode) {body : P (Option Nat)}
    {words : List (BitVec n)} (hpins : Ops (ClocksOnly n) body)
    (hbody : ∀ l t, Sampled 0#32 false l t → wp (sys (sampler lv float n)) anyTime
      (fun r u => ∀ k, r = some k → u.dev = l ++ words) body t) :
    Delivers (sampler lv float n) (progBegin smap size pm >>= fun _ => progSetup b fuel n pm)
      (progLoad b fuel smap n body size pm) body words where
  setup s _ _ hr := wp_run_inv (J := fun t => t.dev = s.dev) (wp_entry b fuel hn smap size pm) hr
  load _ i _ hr := wp_run_ret
    (wp_progLoad b fuel hn smap size pm (fun u hu => hbody _ u hu) fun _ _ hk => nomatch hk) hr i rfl
  pins s _ _ hr := wp_run_inv (J := fun t => OthersKept n s.gpio t.gpio)
    (wp_of_ops (keeps_others n s.gpio) hpins ⟨rfl, fun _ _ => rfl⟩) hr

/-- **Plain programming delivers the bitstream.**  `ficProgSm8` is `ficProgSm8Load` followed by
`progFinish`, and `ficProgSm8Load` is the set-up followed by `plainLoop8`; likewise for x16, where
the size is `2 * n`. -/
theorem plain_delivers (lv : Gpio → BitVec 32 → Prop) (float : BitVec 32) (b : Board) (fuel : Nat)
    (pm : ProgMode) (data : Mem) :
    (∀ size, Delivers (sampler lv float 8)
      (progBegin .smap8 size pm >>= fun _ => progSetup b fuel 8 pm)
      (ficProgSm8Load b fuel data size pm) (plainLoop8 fuel data size 0 0#32)
      ((List.range size).map data)) ∧
    ∀ n, Delivers (sampler lv float 16)
      (progBegin .smap16 (2 * n) pm >>= fun _ => progSetup b fuel 16 pm)
      (ficProgSm16Load b fuel data (2 * n) pm) (plainLoop16 fuel data ((2 * n + 1) / 2) 0 0#32)
      ((List.range n).map fun k =>
        (data (2 * k)).setWidth 16 ||| ((data (2 * k + 1)).setWidth 16 <<< 8)) := by
  constructor
  · intro size
    refine delivers_of b fuel (by decide) .smap8 size pm (clocks_body fuel .sm8 data size) fun l t ht => ?_
    refine wp_mono (wp_plainLoop8 fuel data size 0 ht) fun r u _ hu k hk => ?_
    rw [List.range_eq_range']
    exact (hu k hk).2
  · intro n
    refine delivers_of b fuel (by decide) .smap16 (2 * n) pm
      (clocks_body fuel .sm16 data (2 * n)) fun l t ht => ?_
    rw [show (2 * n + 1) / 2 = n by omega]
    refine wp_mono (wp_plainLoop16 fuel data n 0 ht) fun r u _ hu k hk => ?_
    rw [List.range_eq_range']
    exact (hu k hk).2

/-! ## Such runs exist -/

section
variable {float : BitVec 32} {n : Nat} (fuel : Nat) {s : World (List (BitVec n))}

/-- A round that INIT does not end. -/
theorem can_plainRoundEnd (k : Nat) (h : StatusInputs s.gpio) :
    can (sys (samplerRb float n)) CanSetUp (plainRoundEnd k) s := by
  refine can_issue (o := .stat _) () rfl <| can_time <| can_get _ h.readsBack ?_
  rw [getPin_init]
  exact ⟨by decide, h⟩

theorem can_plainRound8 (d d' : BitVec 32) (h : StatusInputs s.gpio) :
    can (sys (samplerRb float n)) CanSetUp (plainRound8 (fuel + 1) d d') s := by
  unfold plainRound8
  split
  · refine can_bind (can_ficClrGpioFast fuel samplerRb_readsLatch _ ?_)
    exact can_issue (o := .set _) () rfl ⟨by decide, h.congr rfl⟩
  · exact can_issue (o := .clr _) () rfl <| can_issue (o := .set _) () rfl <|
      can_issue (o := .set _) () rfl ⟨by decide, h.congr rfl⟩

theorem can_plainRound16 (d d' : BitVec 32) (h : StatusInputs s.gpio) :
    can (sys (samplerRb float n)) CanSetUp (plainRound16 (fuel + 1) d d') s := by
  unfold plainRound16
  split
  · refine can_bind (can_ficClrGpioFast fuel samplerRb_readsLatch _ ?_)
    exact can_bind (can_ficSetGpioFast fuel samplerRb_readsLatch _ ⟨by decide, h.congr rfl⟩)
  · refine can_bind (can_ficClrGpio fuel samplerRb_readsLatch _ ?_)
    refine can_bind (can_ficSetGpio fuel samplerRb_readsLatch _ ?_)
    exact can_bind (can_ficSetGpio fuel samplerRb_readsLatch _ ⟨by decide, h.congr rfl⟩)

theorem can_plainLoop8 (data : Mem) (k i : Nat) (d' : BitVec 32) (h : StatusInputs s.gpio) :
    can (sys (samplerRb float n)) (fun r _ => r = some (i + k)) (plainLoop8 (fuel + 1) data k i d') s := by
  induction k generalizing i d' s with
  | zero => rfl
  | succ k ih =>
    refine can_checkOr (can_mono (can_plainRound8 fuel _ _ h) fun _ t ht => ⟨ht.1, ?_⟩)
    refine can_checkOr (can_mono (can_plainRoundEnd 1 ht.2) fun _ u hu => ⟨hu.1, ?_⟩)
    rw [show i + (k + 1) = i + 1 + k by omega]
    exact ih _ _ hu.2

theorem can_plainLoop16 (data : Mem) (k i : Nat) (d' : BitVec 32) (h : StatusInputs s.gpio) :
    can (sys (samplerRb float n)) (fun r _ => r = some (i + 2 * k))
      (plainLoop16 (fuel + 1) data k i d') s := by
  induction k generalizing i d' s with
  | zero => rfl
  | succ k ih =>
    refine can_checkOr (can_mono (can_plainRound16 fuel _ _ h) fun _ t ht => ⟨ht.1, ?_⟩)
    refine can_checkOr (can_mono (can_plainRoundEnd 2 ht.2) fun _ u hu => ⟨hu.1, ?_⟩)
    rw [show i + 2 * (k + 1) = i + 2 + 2 * k by omega]
    exact ih _ _ hu.2

end

/-- Every bitstream has a run to the end of the loop, from any state of the pins. -/
theorem plain_completes (float : BitVec 32) (b : Board) (fuel : Nat) (pm : ProgMode)
    (data : Mem) (size : Nat) :
    (∀ s, ∃ t, (sys (samplerRb float 8)).Run (ficProgSm8Load b (fuel + 1) data size pm,
      s) (ret (some size), t)) ∧
    ∀ s, ∃ t, (sys (samplerRb float 16)).Run (ficProgSm16Load b (fuel + 1) data (2 * size) pm, s)
      (ret (some (2 * size)), t) := by
  constructor
  · intro s
    obtain ⟨r, t, hr, rfl⟩ := can_run (S := sys (samplerRb float 8)) (s := s)
      (can_progLoad b fuel .smap8 size pm fun u hu => can_plainLoop8 fuel data size 0 0#32 hu)
    rw [Nat.zero_add] at hr
    exact ⟨t, hr⟩
  · intro s
    obtain ⟨r, t, hr, rfl⟩ := can_run (S := sys (samplerRb float 16)) (s := s)
        (can_progLoad b fuel .smap16 (2 * size) pm
      fun u hu => can_plainLoop16 fuel data ((2 * size + 1) / 2) 0 0#32 hu)
    rw [show 0 + 2 * ((2 * size + 1) / 2) = 2 * size by omega] at hr
    exact ⟨t, hr⟩

/-- Two equal bytes, the second of which is clocked in without writing the data pins. -/
theorem plain_delivers_repeat : ∃ t, (sys (samplerRb 0#32 8)).Run
      (ficProgSm8Load .mk1 1 (fun _ => 7#8) 2 .pr, ⟨World.start.gpio, World.start.stat, []⟩)
      (ret (some 2), t) ∧
    t.dev = [7#8, 7#8] := by
  obtain ⟨t, ht⟩ :=
    (plain_completes 0#32 .mk1 0 .pr (fun _ => 7#8) 2).1 ⟨World.start.gpio, World.start.stat, []⟩
  exact ⟨t, ht, ((plain_delivers ReadsBack 0#32 .mk1 1 .pr fun _ => 7#8).1 2).load _ _ _ ht⟩

end Libfic2
