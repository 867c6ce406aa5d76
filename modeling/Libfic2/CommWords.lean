import Libfic2.CommBus

/-!
# One word over the bus

What a peer makes of one word is given by assertions on its state: `X0` before the
strobe, `X1` while RSTB is up, `X2` once FACK has been read up, `X3` after RSTB is
down, and for the slow functions `X4` once FACK has been read down.  `WordSent` and
`WordReceived` list what the peer has to do for that, one field for each moment,
and the rules `wp_ficCommSend` .. `wp_ficCommReceiveFast` carry the four word
functions from `X0` to the last of them.
-/

namespace Libfic2

open Driver Prog Sys

variable (b : Board) {D : Type} (dev : Device D)

/-- RREQ is driven high and RSTB is not. -/
def Armed (g : Gpio) : Prop := g.high b.rpRreq = true ∧ g.high b.rpRstb = false

/-- A strobe: RSTB becomes driven high while RREQ is driven high. -/
def strobeEdge (g g' : Gpio) : Bool := g'.high b.rpRstb && !g.high b.rpRstb && g'.high b.rpRreq

/-- `X` does not change while the bus is armed. -/
structure ArmedStable (X : D → Prop) : Prop where
  env : ∀ g d d', Armed b g → X d → dev.env g d d' → X d'
  seen : ∀ g g' d, Armed b g → Armed b g' → X d → X (dev.seen g g' d)

/-- How the peer takes the word `w`. -/
structure WordSent (w : BitVec b.width) (X0 X1 X2 X3 : D → Prop) : Prop where
  before : ArmedStable b dev X0
  strobe : ∀ g g' d, Driving b 0#b.width false g → Driving b w true g' → X0 d → X1 (dev.seen g g' d)
  env1 : ∀ g d d', Driving b w true g → X1 d → dev.env g d d' → X1 d'
  ack : ∀ g d v, Driving b w true g → X1 d → dev.level g d v → v.getLsbD b.rpFack = true → X2 d
  env2 : ∀ g d d', Driving b w true g → X2 d → dev.env g d d' → X2 d'
  fall : ∀ g g' d, Driving b w true g → Driving b w false g' → X2 d → X3 (dev.seen g g' d)
  env3 : ∀ g d d', Driving b w false g → X3 d → dev.env g d d' → X3 d'

/-- How the peer hands over a word; `X2 u` and `X3 u` are about the case that it is `u`. -/
structure WordReceived (X0 X1 : D → Prop) (X2 X3 : BitVec b.width → D → Prop) : Prop where
  before : ArmedStable b dev X0
  strobe : ∀ g g' d, Listening b false g → Listening b true g' → X0 d → X1 (dev.seen g g' d)
  env1 : ∀ g d d', Listening b true g → X1 d → dev.env g d d' → X1 d'
  ack : ∀ g d v, Listening b true g → X1 d → dev.level g d v → v.getLsbD b.rpFack = true → ∃ u, X2 u d
  env2 : ∀ u g d d', Listening b true g → X2 u d → dev.env g d d' → X2 u d'
  word : ∀ u g d v, Listening b true g → X2 u d → dev.level g d v → busBits b v = u
  fall : ∀ u g g' d, Listening b true g → Listening b false g' → X2 u d → X3 u (dev.seen g g' d)
  env3 : ∀ u g d d', Listening b false g → X3 u d → dev.env g d d' → X3 u d'

/-- A peer in the four-phase handshake: it waits for RSTB, has taken or placed a word, or holds FACK up. -/
inductive Handshake | ready | taken | acked
deriving DecidableEq, Repr

theorem Handshake.eq_ready {h : Handshake} (ht : h ≠ .taken) (ha : h ≠ .acked) : h = .ready := by
  cases h with
  | ready => rfl
  | taken => exact absurd rfl ht
  | acked => exact absurd rfl ha

theorem Handshake.ne_taken {h : Handshake} (ha : h = .acked) : h ≠ .taken := by
  rintro rfl
  cases ha

/-- Between two words. -/
def Between (g : Gpio) : Prop := ∃ w, Driving b w false g

variable {b dev}

theorem Driving.armed {w : BitVec b.width} {g : Gpio} (h : Driving b w false g) :
    Armed b g := ⟨h.rreq, h.strobe⟩
theorem Listening.armed {g : Gpio} (h : Listening b false g) : Armed b g := ⟨h.rreq, h.strobe⟩
theorem Between.armed {g : Gpio} (h : Between b g) : Armed b g := h.elim fun _ h => h.armed

theorem strobeEdge_armed {g g' : Gpio} (h : Armed b g') : strobeEdge b g g' = false := by
  unfold strobeEdge
  rw [h.2]
  rfl

theorem Driving.strobeEdge {w w' : BitVec b.width} {g g' : Gpio} (h : Driving b w false g)
    (h' : Driving b w' true g') : strobeEdge b g g' = true := by
  unfold Libfic2.strobeEdge
  rw [h.strobe, h'.strobe, h'.rreq]
  rfl

theorem Listening.strobeEdge {g g' : Gpio} (h : Listening b false g) (h' : Listening b true g') :
    strobeEdge b g g' = true := by
  unfold Libfic2.strobeEdge
  rw [h.strobe, h'.strobe, h'.rreq]
  rfl

theorem ArmedStable.stable {X : D → Prop} (hX : ArmedStable b dev X) {A : Gpio → Prop}
    (hA : ∀ g, A g → Armed b g) : Stable dev (Holds A X) :=
  stable_holds fun g d d' h => hX.env g d d' (hA g h)

theorem ArmedStable.touch {X : D → Prop} (hX : ArmedStable b dev X) {A A' : Gpio → Prop}
    (hA : ∀ g, A g → Armed b g) (hA' : ∀ g, A' g → Armed b g) {f : Gpio → Gpio}
    (hstep : ∀ g, A g → A' (f g))
    (t : World D) (h : Holds A X t) : Holds A' X (t.touch dev (f t.gpio)) :=
  ⟨hstep _ h.1, hX.seen _ _ _ (hA _ h.1) (hA' _ (hstep _ h.1)) h.2⟩

theorem intOr_neg_one_left (x : Int) : intOr (-1) x = -1 := by
  unfold intOr
  rw [show BitVec.ofInt 32 (-1) = BitVec.allOnes 32 by decide, BitVec.allOnes_or]
  decide

theorem intOr_neg_one_right (x : Int) : intOr x (-1) = -1 := by
  unfold intOr
  rw [show BitVec.ofInt 32 (-1) = BitVec.allOnes 32 by decide, BitVec.or_allOnes]
  decide

/-- The fast receive keeps just the data pins. -/
theorem busBits_fastMask (v : BitVec 32) :
    (v >>> b.rpDataLow) &&& fastMask b = (busBits b v).setWidth 32 := by
  have hmask : ∀ i, i < 32 → (fastMask b).getLsbD i = decide (i < b.width) := by
    cases b <;> decide
  apply BitVec.eq_of_getLsbD_eq
  intro i hi
  unfold busBits
  rw [BitVec.getLsbD_and, hmask i hi, BitVec.getLsbD_setWidth, BitVec.getLsbD_setWidth, decide_eq_true hi,
    Bool.true_and, Bool.and_comm]

/-! ## Sending -/

section
variable {w : BitVec b.width} {X0 X1 X2 X3 X4 : D → Prop} (hw : WordSent b dev w X0 X1 X2 X3) (fuel : Nat)
include hw

theorem WordSent.stable1 : Stable dev (Holds (Driving b w true) X1) := stable_holds hw.env1
theorem WordSent.stable2 : Stable dev (Holds (Driving b w true) X2) := stable_holds hw.env2
theorem WordSent.stable3 : Stable dev (Holds (Driving b w false) X3) := stable_holds hw.env3

/-- The wait for FACK ends in `X2`. -/
theorem WordSent.waitUp (t : World D) (v : BitVec 32) (ht : Holds (Driving b w true) X1 t)
    (hv : dev.level t.gpio t.dev v) (hc : (getPin v b.rpFack == 0#32) = false) :
    Holds (Driving b w true) X2 t := by
  have hb := board_pins (b := b)
  rw [getPin_beq_zero v (by omega), Bool.not_eq_false'] at hc
  exact ⟨ht.1, hw.ack _ _ v ht.1 ht.2 hv hc⟩

theorem WordSent.touchClear (t : World D) (h : Holds (Between b) X0 t) :
    Holds (Driving b 0#b.width false) X0 (t.touch dev (t.gpio.clr (sendMask b))) :=
  hw.before.touch (fun _ h => h.armed) (fun _ h => h.armed) (fun _ ⟨_, h⟩ => h.clear) t h

theorem WordSent.touchSend (t : World D) (h : Holds (Driving b 0#b.width false) X0 t) :
    Holds (Driving b w true) X1 (t.touch dev (t.gpio.set (rpPin b.rpRstb ||| busWord b w))) :=
  ⟨h.1.send w, hw.strobe _ _ _ h.1 (h.1.send w) h.2⟩

theorem WordSent.touchFall (t : World D) (h : Holds (Driving b w true) X2 t) :
    Holds (Driving b w false) X3 (t.touch dev (t.gpio.clr (rpPin b.rpRstb))) :=
  ⟨h.1.fall, hw.fall _ _ _ h.1 h.1.fall h.2⟩

/-- `fic_comm_send` -/
theorem wp_ficCommSend (h4 : ArmedStable b dev X4)
    (hdown : ∀ g d v, Driving b w false g → X3 d → dev.level g d v → v.getLsbD b.rpFack = false → X4 d)
    {s : World D} (hs : Holds (Between b) X0 s) :
    wp (sys dev) anyTime (Opened (Between b) X4) (ficCommSend b fuel (busWord b w)) s := by
  have hst0 : Stable dev (Holds (Between b) X0) := hw.before.stable fun _ h => h.armed
  have hst0' : Stable dev (Holds (Driving b 0#b.width false) X0) := hw.before.stable fun _ h => h.armed
  have hst4 : Stable dev (Holds (Between b) X4) := h4.stable fun _ h => h.armed
  have fail : ∀ t, wp (sys dev) anyTime (Opened (Between b) X4) (ret (-1)) t :=
    fun t => wp_retI (I := anyTime) (fun _ _ _ _ => trivial) trivial fun u _ => opened_fail u
  refine wp_checkOr (wp_ficClrGpioI hst0 hs fuel _ hst0' hw.touchClear fun _ _ t ht =>
    ⟨fun _ => fail t, fun _ => ?_⟩)
  refine wp_checkOr (wp_ficSetGpioI hst0' ht fuel _ hw.stable1 hw.touchSend
    fun _ _ t ht => ⟨fun _ => fail t, fun _ => ?_⟩)
  refine wp_checkOr (wp_pollTimedI hw.stable1 ht fuel hw.stable2 hw.waitUp
    (fun t ht => ⟨fun _ => fail t, fun _ => ?_⟩) fun t _ =>
    ⟨fun _ => fail t, fun h => absurd (by decide) h⟩)
  refine wp_checkOr (wp_ficClrGpioI hw.stable2 ht fuel _ hw.stable3 hw.touchFall
    fun _ _ t ht => ⟨fun _ => fail t, fun _ => ?_⟩)
  refine wp_checkOr (wp_pollTimedI hw.stable3 ht fuel hst4 (fun t v ht hv hc => ?_)
    (fun t ht => ⟨fun _ => fail t, fun _ => wp_retI hst4 ht fun _ hu _ => hu⟩)
    fun t _ => ⟨fun _ => fail t, fun h => absurd (by decide) h⟩)
  have hb := board_pins (b := b)
  rw [getPin_beq_one v (by omega)] at hc
  exact ⟨⟨w, ht.1⟩, hdown _ _ v ht.1 ht.2 hv hc⟩

/-- `fic_comm_send_fast` -/
theorem wp_ficCommSendFast {s : World D} (hs : Holds (Between b) X0 s) :
    wp (sys dev) anyTime (fun r t => r = -1 ∨ (r = 0 ∧ Holds (Driving b w false) X3 t))
      (ficCommSendFast b fuel (busWord b w)) s := by
  have hst0 : Stable dev (Holds (Between b) X0) := hw.before.stable fun _ h => h.armed
  have hst0' : Stable dev (Holds (Driving b 0#b.width false) X0) := hw.before.stable fun _ h => h.armed
  have any : ∀ {α : Type} (p : P α) (t : World D), wp (sys dev) anyTime (fun _ _ => True) p t :=
    fun _ _ => wp_of_runs (fun _ _ _ => trivial) fun _ _ _ => trivial
  refine wp_bind (wp_ficClrGpioI hst0 hs fuel _ hst0' hw.touchClear fun r1 hr1 t ht => ?_)
  rcases hr1 with rfl | rfl
  · refine wp_bind (wp_ficSetGpioFastI hst0' ht fuel _ hw.stable1 hw.touchSend fun t ht => ?_)
    refine wp_bind (wp_pollCountedI hw.stable1 _ ht hw.stable2 hw.waitUp (fun t ht => ?_) fun t _ => ?_)
    · refine wp_bind (wp_ficClrGpioFastI hw.stable2 ht fuel _ hw.stable3 hw.touchFall fun t ht => ?_)
      exact wp_retI hw.stable3 ht fun u hu => .inr ⟨rfl, hu⟩
    · refine wp_bind (wp_mono (any _ t) fun r4 t _ _ => ?_)
      refine wp_retI (I := anyTime) (fun _ _ _ _ => trivial) trivial fun u _ => .inl ?_
      rw [intOr_neg_one_right, intOr_neg_one_left]
  · refine wp_bind (wp_mono (any _ t) fun r2 t _ _ => wp_bind (wp_mono (any _ t) fun r3 t _ _ =>
      wp_bind (wp_mono (any _ t) fun r4 t _ _ => ?_)))
    refine wp_retI (I := anyTime) (fun _ _ _ _ => trivial) trivial fun u _ => .inl ?_
    rw [intOr_neg_one_right, intOr_neg_one_left, intOr_neg_one_left, intOr_neg_one_left]

end

/-! ## Receiving -/

/-- What `fic_comm_receive` answers: the word, on mk1 with the levels of four further pins above it. -/
def AnswersWord (u : BitVec b.width) (r : Int) : Prop :=
  ∃ v : BitVec 32, r = ((v >>> b.rpDataLow) &&& rcvMask b).toNat ∧ busBits b v = u

section
variable {X0 X1 X4 : D → Prop} {X2 X3 : BitVec b.width → D → Prop}
variable (hu : WordReceived b dev X0 X1 X2 X3) (fuel : Nat)
include hu

theorem WordReceived.stable0 : Stable dev (Holds (Listening b false) X0) :=
  hu.before.stable fun _ h => h.armed
theorem WordReceived.stable1 : Stable dev (Holds (Listening b true) X1) := stable_holds hu.env1
theorem WordReceived.stable2 (u : BitVec b.width) : Stable dev (Holds (Listening b true) (X2 u)) :=
  stable_holds (hu.env2 u)
theorem WordReceived.stable3 (u : BitVec b.width) : Stable dev (Holds (Listening b false) (X3 u)) :=
  stable_holds (hu.env3 u)

theorem WordReceived.stableAck : Stable dev fun t => ∃ u, Holds (Listening b true) (X2 u) t :=
  fun t t' he ⟨u, h⟩ => ⟨u, hu.stable2 u t t' he h⟩

theorem WordReceived.waitUp (t : World D) (v : BitVec 32) (ht : Holds (Listening b true) X1 t)
    (hv : dev.level t.gpio t.dev v) (hc : (getPin v b.rpFack == 0#32) = false) :
    ∃ u, Holds (Listening b true) (X2 u) t := by
  have hb := board_pins (b := b)
  rw [getPin_beq_zero v (by omega), Bool.not_eq_false'] at hc
  obtain ⟨u, hx⟩ := hu.ack _ _ v ht.1 ht.2 hv hc
  exact ⟨u, ht.1, hx⟩

theorem WordReceived.touchLow (t : World D) (h : Holds (Listening b false) X0 t) :
    Holds (Listening b false) X0 (t.touch dev (t.gpio.clr (rpPin b.rpRstb))) :=
  hu.before.touch (fun _ h => h.armed) (fun _ h => h.armed) (fun _ h => h.fall) t h

theorem WordReceived.touchRise (t : World D) (h : Holds (Listening b false) X0 t) :
    Holds (Listening b true) X1 (t.touch dev (t.gpio.set (rpPin b.rpRstb))) :=
  ⟨h.1.rise, hu.strobe _ _ _ h.1 h.1.rise h.2⟩

theorem WordReceived.touchFall (u : BitVec b.width) (t : World D) (h : Holds (Listening b true) (X2 u) t) :
    Holds (Listening b false) (X3 u) (t.touch dev (t.gpio.clr (rpPin b.rpRstb))) :=
  ⟨h.1.fall, hu.fall u _ _ _ h.1 h.1.fall h.2⟩

/-- `fic_comm_receive` -/
theorem wp_ficCommReceive {X4 : BitVec b.width → D → Prop} (h4 : ∀ u, ArmedStable b dev (X4 u))
    (hdown : ∀ u g d v, Listening b false g → X3 u d → dev.level g d v →
      v.getLsbD b.rpFack = false → X4 u d) {s : World D} (hs : Holds (Listening b false) X0 s) :
    wp (sys dev) anyTime
      (fun r t => ¬ r < 0 → ∃ u, AnswersWord u r ∧ Holds (Listening b false) (X4 u) t)
      (ficCommReceive b fuel) s := by
  have fail : ∀ t, wp (sys dev) anyTime
      (fun r t => ¬ r < 0 → ∃ u, AnswersWord u r ∧ Holds (Listening b false) (X4 u) t) (ret (-1)) t :=
    fun t => wp_retI (I := anyTime) (fun _ _ _ _ => trivial) trivial fun _ _ h => absurd (by decide) h
  refine wp_checkOr (wp_ficClrGpioI hu.stable0 hs fuel _ hu.stable0 hu.touchLow
    fun _ _ t ht => ⟨fun _ => fail t, fun _ => ?_⟩)
  refine wp_checkOr (wp_ficSetGpioI hu.stable0 ht fuel _ hu.stable1 hu.touchRise
    fun _ _ t ht => ⟨fun _ => fail t, fun _ => ?_⟩)
  refine wp_checkOr (wp_pollTimedI hu.stable1 ht fuel hu.stableAck hu.waitUp
    (fun t ht => ⟨fun _ => fail t, fun _ => ?_⟩) fun t _ =>
    ⟨fun _ => fail t, fun h => absurd (by decide) h⟩)
  obtain ⟨u, ht⟩ := ht
  have hst4 : Stable dev (Holds (Listening b false) (X4 u)) := (h4 u).stable fun _ h => h.armed
  refine wp_getI (hu.stable2 u) ht fun v t ht hv => ?_
  have hword := hu.word u _ _ v ht.1 ht.2 hv
  refine wp_checkOr (wp_ficClrGpioI (hu.stable2 u) ht fuel _ (hu.stable3 u) (hu.touchFall u)
    fun _ _ t ht => ⟨fun _ => fail t, fun _ => ?_⟩)
  refine wp_checkOr (wp_pollTimedI (hu.stable3 u) ht fuel hst4 (fun t v ht hv hc => ?_)
    (fun t ht => ⟨fun _ => fail t, fun _ => wp_retI hst4 ht fun _ hu _ => ⟨u, ⟨v, rfl, hword⟩, hu⟩⟩)
    fun t _ => ⟨fun _ => fail t, fun h => absurd (by decide) h⟩)
  have hb := board_pins (b := b)
  rw [getPin_beq_one v (by omega)] at hc
  exact ⟨ht.1, hdown u _ _ v ht.1 ht.2 hv hc⟩

/-- `fic_comm_receive_fast` -/
theorem wp_ficCommReceiveFast (rcv : BitVec 32) {s : World D} (hs : Holds (Listening b false) X0 s) :
    wp (sys dev) anyTime
      (fun r t => ¬ r.1 < 0 → ∃ u, r.2 = u.setWidth 32 ∧ Holds (Listening b false) (X3 u) t)
      (ficCommReceiveFast b fuel rcv) s := by
  refine wp_bind (wp_ficClrGpioFastI hu.stable0 hs fuel _ hu.stable0 hu.touchLow fun t ht => ?_)
  refine wp_bind (wp_ficSetGpioFastI hu.stable0 ht fuel _ hu.stable1 hu.touchRise fun t ht => ?_)
  refine wp_bind (wp_pollCountedI hu.stable1 _ ht hu.stableAck hu.waitUp (fun t ht => ?_) fun t _ => ?_)
  · rw [if_neg (by decide)]
    obtain ⟨u, ht⟩ := ht
    refine wp_bind (wp_forDo (fun _ t => Holds (Listening b true) (X2 u) t) _ _ (fun i t _ _ ht => ?_)
      (fun t ht => wp_retI (hu.stable2 u) ht fun t ht => ?_) ht)
    · exact wp_getI (hu.stable2 u) ht fun _ t ht _ => wp_retI (hu.stable2 u) ht fun _ h => h
    · refine wp_getI (hu.stable2 u) ht fun v t ht hv => ?_
      have hword := hu.word u _ _ v ht.1 ht.2 hv
      refine wp_bind (wp_ficClrGpioFastI (hu.stable2 u) ht fuel _ (hu.stable3 u)
        (hu.touchFall u) fun t ht => ?_)
      refine wp_retI (hu.stable3 u) ht fun t ht _ => ⟨u, ?_, ht⟩
      rw [← hword]
      exact busBits_fastMask v
  · rw [intOr_neg_one_right, if_pos (by decide)]
    refine wp_retI (I := anyTime) (fun _ _ _ _ => trivial) trivial
      fun _ _ h => absurd (show (-1 : Int) < 0 by decide) h

end

/-! ## Turning the bus around -/

/-- While the data pins below `i` are already inputs. -/
structure Turning (b : Board) (i : Nat) (g : Gpio) : Prop where
  rreq : g.high b.rpRreq = true
  rstb : g.isOut b.rpRstb = true
  level : g.lat b.rpRstb = false
  inputs : ∀ p, dataPin b p = true → p < i → g.fn p = 0#3
  freq : g.fn b.rpFreq = 0#3
  fack : g.fn b.rpFack = 0#3

theorem Turning.armed {i : Nat} {g : Gpio} (h : Turning b i g) : Armed b g := by
  refine ⟨h.rreq, ?_⟩
  unfold Gpio.high
  rw [h.level, Bool.and_false]

theorem Turning.setInput {i : Nat} {g : Gpio} (h : Turning b i g) (hi : dataPin b i = true) :
    Turning b (i + 1) (g.setInput i) := by
  have ha := board_apart (b := b)
  have keep : ∀ p, p ≠ i → (g.setInput i).fn p = g.fn p := fun p hp => by rw [Gpio.fn_setInput, if_neg hp]
  refine ⟨?_, ?_, h.level, fun p hp hlt => ?_, ?_, ?_⟩
  · have := h.rreq
    unfold Gpio.high Gpio.isOut at this ⊢
    rwa [keep _ (dataPin_ne hi ha.1).symm]
  · have := h.rstb
    unfold Gpio.isOut at this ⊢
    rwa [keep _ (dataPin_ne hi ha.2.1).symm]
  · by_cases hpi : p = i
    · rw [Gpio.fn_setInput, if_pos hpi]
    · rw [keep p hpi]
      exact h.inputs p hp (by omega)
  · rw [keep _ (dataPin_ne hi ha.2.2.1).symm, h.freq]
  · rw [keep _ (dataPin_ne hi ha.2.2.2.1).symm, h.fack]

/-- `fic_comm_portdir(COMM_PORT_RCV)` -/
theorem wp_portdirRcv {X : D → Prop} (hX : ArmedStable b dev X) {α : Type} {Q : α → World D → Prop}
    {k : Unit → P α} {s : World D} (hs : Holds (Between b) X s)
    (h : ∀ t, Holds (Listening b false) X t → wp (sys dev) anyTime Q (k ()) t) :
    wp (sys dev) anyTime Q (ficCommPortdir b .rcv >>= k) s := by
  have harm : ∀ i g, Turning b i g → Armed b g := fun i g h => h.armed
  refine wp_bind (wp_forDo (fun i t => Holds (Turning b i) X t) _ _ (fun i t h1 h2 ht => ?_)
    (fun t ht => ?_) ?_)
  · have hi : dataPin b i = true := dataPin_iff.2 ⟨h1, h2⟩
    refine wp_pinsI (o := .setInput i) (hX.stable (harm i)) ht (fun _ _ _ ha => ha)
      (hX.touch (harm i) (harm (i + 1)) (f := fun g => g.setInput i) fun g hg => hg.setInput hi)
      fun _ u hu => ?_
    exact wp_retI (hX.stable (harm (i + 1))) hu fun v hv => hv
  · refine wp_retI (hX.stable (harm _)) ht fun u hu => h u ⟨?_, hu.2⟩
    exact ⟨hu.1.rreq, hu.1.rstb, hu.1.level, fun p hp => hu.1.inputs p hp (dataPin_iff.1 hp).2, hu.1.freq,
      hu.1.fack⟩
  · obtain ⟨⟨w, hd⟩, hx⟩ := hs
    exact ⟨⟨hd.rreq, hd.rstb, hd.level, fun p hp hlt => absurd (dataPin_iff.1 hp).1 (by omega),
      hd.freq, hd.fack⟩, hx⟩

/-! ## Several words -/

variable (b dev) in
/-- A peer that takes words with the whole handshake: from `ready a` the word `w` leads to
`ready (next a w)`. -/
structure Channel (A : Type) where
  ready : A → D → Prop
  next : A → BitVec b.width → A
  armed : ∀ a, ArmedStable b dev (ready a)
  sent : ∀ a w, ∃ X1 X2 X3, WordSent b dev w (ready a) X1 X2 X3 ∧
    ∀ g d v, Driving b w false g → X3 d → dev.level g d v → v.getLsbD b.rpFack = false → ready (next a w) d

section
variable {A : Type} (ch : Channel b dev A) (fuel : Nat)

/-- The state after several words. -/
def Channel.after (a : A) (ws : List (BitVec b.width)) : A := ws.foldl ch.next a

theorem Channel.stable (a : A) : Stable dev (Holds (Between b) (ch.ready a)) :=
  (ch.armed a).stable fun _ h => h.armed

/-- One word on a channel, and what follows. -/
theorem Channel.wp_send {a : A} (w : BitVec b.width) {bus : BitVec 32} (hbus : bus = busWord b w) {α : Type}
    {Q : α → World D → Prop} {e : α} {k : P α} {s : World D} (hs : Holds (Between b) (ch.ready a) s)
    (he : ∀ t, Q e t)
    (h : ∀ t, Holds (Between b) (ch.ready (ch.next a w)) t → wp (sys dev) anyTime Q k t) :
    wp (sys dev) anyTime Q (checkOr e (ficCommSend b fuel bus) k) s := by
  obtain ⟨X1, X2, X3, hw, hdown⟩ := ch.sent a w
  subst hbus
  refine wp_checkOr (wp_mono (wp_ficCommSend hw fuel (ch.armed _) hdown hs) fun r t _ ht =>
    ⟨fun _ => ?_, fun hr => h t (ht hr)⟩)
  exact wp_retI (I := anyTime) (fun _ _ _ _ => trivial) trivial fun u _ => he u

end

end Libfic2
