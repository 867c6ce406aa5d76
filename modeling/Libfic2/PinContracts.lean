import Libfic2.DrivenPins

/-!
# Contracts of the register and HLS functions

Begun anyhow, each of these calls makes its pins outputs before it sets or clears them, and
comes to an end.  The exception is `fic_write` on mk1, whose last mask has pins that it never
drives: `contract_ficWrite` asks for a guard that allows it.
-/

namespace Libfic2

open Driver Prog

variable {E : Env} {G : Guard} {S T : Nat → Prop} {α β : Type} {b : Board} {i : Nat}

/-! ## Pin modes -/

theorem contract_setInput (h : ∀ q, T q → S q ∧ q ≠ i) :
    Contract (E.bench G) (Outs S) (fun _ => issue (.setInput i)) fun _ => Outs T :=
  contract_call (fun _ _ => G.driven _ _ trivial) fun _ _ hg q hq =>
    Gpio.isOut_setInput (hg q (h q hq).1) (h q hq).2

theorem contract_setOutput (h : ∀ q, T q → S q) :
    Contract (E.bench G) (Outs S) (fun _ => issue (.setOutput i)) fun _ => Outs T :=
  contract_call (fun _ _ => G.driven _ _ trivial) fun _ _ hg q hq => Gpio.isOut_setOutput (hg q (h q hq)) i

/-- SET_INPUT and SET_OUTPUT add an output. -/
theorem contract_setInputOutput (h : ∀ q, T q → S q ∨ q = i) :
    Contract (E.bench G) (Outs S) (fun _ => setInputOutput i) fun _ => Outs T := by
  refine ⟨fun _ g hg => ⟨G.driven _ _ trivial, fun _ => ⟨G.driven _ _ trivial, fun _ q hq => ?_⟩⟩,
    fun _ _ => ⟨_, 0, fun _ _ => rfl⟩⟩
  by_cases hqi : q = i
  · rw [hqi]
    exact Gpio.isOut_setInputOutput _ i
  · have hout : g.isOut q = true := hg q ((h q hq).resolve_right hqi)
    exact Gpio.isOut_setOutput (Gpio.isOut_setInput hout hqi) i

theorem keeps_setInputOutput : Keeps E G S fun _ => setInputOutput i :=
  contract_setInputOutput fun _ => .inl

theorem contract_setAllInput {Pre : Gpio → Prop} :
    Contract (E.bench G) Pre (fun _ => setAllInput) fun _ => Outs fun _ => False := by
  refine ⟨fun _ _ _ => ?_, fun _ _ => ⟨_, 0, fun _ _ => rfl⟩⟩
  exact ⟨G.driven _ _ trivial, fun _ =>
    ⟨G.driven _ _ trivial, fun _ => ⟨G.driven _ _ trivial, fun _ _ hq => hq.elim⟩⟩⟩

/-! ## Set-up and release -/

/-- A step that succeeds leaves the outputs of `S`. -/
def Gives (S : Nat → Prop) : Int → Gpio → Prop := fun r g => 0 ≤ r → Outs S g

/-- Nothing is said about the end. -/
abbrev Anyhow {α : Type} : α → Gpio → Prop := fun _ _ => True

theorem contract_open {Pre : Gpio → Prop} {q : Nat → P Int} {k : Nat → P α} {e : α}
    (hq : Contract (E.bench G) Pre q (Gives S))
    (hk : Contract (E.bench G) (Outs S) k Anyhow) :
    Contract (E.bench G) Pre (fun n => checkOr e (q n) (k n)) Anyhow :=
  contract_checkOr hq (fun _ _ _ _ => trivial)
    (contract_mono hk (fun _ ⟨_, hr, h⟩ => h hr) fun _ _ _ => trivial)

theorem contract_step {q : Nat → P Int} {k : Nat → P α} {e : α} (hq : Keeps E G S q)
    (hk : Contract (E.bench G) (Outs S) k Anyhow) :
    Contract (E.bench G) (Outs S) (fun n => checkOr e (q n) (k n)) Anyhow :=
  contract_open (contract_mono hq (fun _ h => h) fun _ _ h _ => h) hk

theorem Keeps.anyhow {p : Nat → P α} (h : Keeps E G S p) : Contract (E.bench G) (Outs S) p Anyhow :=
  contract_mono h (fun _ h => h) fun _ _ _ => trivial

/-- `fic_clr_gpio`, also of pins that are no outputs. -/
theorem keeps_ficClrGpio_of {v : BitVec 32} (hv : ∀ g, Outs S g → G.allows (.clr v) g) :
    Keeps E G S fun n => ficClrGpio n v :=
  keeps_bind (contract_call hv fun _ _ hg => hg) fun _ => keeps_pollTimed _

theorem contract_release {m : BitVec 32} {a e : α} (hm : ∀ g, Outs S g → G.allows (.clr m) g) :
    Contract (E.bench G) (Outs S) (fun n => checkOr e (ficClrGpio n m) <|
    checkOr e (ficCommWaitFreqDown b n) <| do
      setAllInput
      ret a) Anyhow :=
  contract_step (keeps_ficClrGpio_of hm) <| contract_step (keeps_pollTimed _) <|
    contract_bind contract_setAllInput fun _ => contract_ret fun _ _ => trivial

theorem allows_clr {v : BitVec 32} (hv : Within S v) (g : Gpio) (hg : Outs S g) : G.allows (.clr v) g :=
  G.driven _ _ (hg.within hv)

/-- RREQ, RSTB and the data bus. -/
def BusPins (b : Board) (p : Nat) : Prop := commPin b p = true

/-- RREQ and RSTB. -/
def StrobePins (b : Board) (p : Nat) : Prop := p = b.rpRreq ∨ p = b.rpRstb

theorem busPins_rreq : BusPins b b.rpRreq := commPin_iff.2 (.inl rfl)
theorem busPins_rstb : BusPins b b.rpRstb := commPin_iff.2 (.inr (.inl rfl))
theorem busPins_data (p : Nat) (h : dataPin b p = true) : BusPins b p := commPin_iff.2 (.inr (.inr h))

theorem busPins_lt {p : Nat} (h : BusPins b p) : p < gpioPinMax := by
  rcases commPin_iff.1 h with rfl | rfl | h
  · cases b <;> decide
  · cases b <;> decide
  · have := dataPin_iff.1 h
    have := board_pins (b := b)
    simp only [gpioPinMax, rpRdwrB]
    omega

/-- The pins of `A` below `i`. -/
def Below (A : Nat → Prop) (i p : Nat) : Prop := p < i ∧ A p

/-- What the set-up functions do with one pin. -/
theorem contract_drivePin {A : Nat → Prop} {p : Nat → P Int} (hp : Keeps E G (Below A (i + 1)) p) :
    Contract (E.bench G) (Outs (Below A i)) (fun n => do
      setInputOutput i
      check (p n) (ret 0)) fun _ => Outs (Below A (i + 1)) := by
  have hpins : ∀ q, Below A (i + 1) q → Below A i q ∨ q = i := by
    intro q hq
    obtain hlt | heq := Nat.lt_succ_iff_lt_or_eq.1 hq.1
    · exact .inl ⟨hlt, hq.2⟩
    · exact .inr heq
  refine contract_bind (contract_setInputOutput hpins) fun _ => ?_
  exact keeps_check hp (keeps_ret _)

theorem Below.succ {A : Nat → Prop} {p : Nat} (h : Below A (i + 1) p) (hi : ¬ A i) : Below A i p := by
  rcases Nat.lt_succ_iff_lt_or_eq.1 h.1 with hlt | rfl
  · exact ⟨hlt, h.2⟩
  · exact absurd h.2 hi

theorem contract_ficCommSetup {Pre : Gpio → Prop} :
    Contract (E.bench G) Pre (fun n => ficCommSetup b n) (Gives (BusPins b)) := by
  have hround : ∀ i, 0 ≤ i → i < 0 + gpioPinMax →
      Contract (E.bench G) (Outs (Below (BusPins b) i)) (fun n => do
      when (i == b.rpFack || i == b.rpFreq) (issue (.setInput i))
      if commPin b i then do
        setInputOutput i
        check (ficClrGpio n (rpPin i)) (ret 0)
      else ret 0) fun r g => if r < 0 then True else Outs (Below (BusPins b) (i + 1)) g := by
    intro i _ _
    refine contract_bind (contract_when (fun _ => contract_setInput fun q hq => ⟨hq, Nat.ne_of_lt hq.1⟩)
      fun _ _ h => h) fun _ => ?_
    refine contract_if (fun hc => ?_) fun hc => contract_ret fun g hg => ?_
    · refine contract_mono (contract_drivePin (keeps_ficClrGpio (within_pin ⟨Nat.lt_succ_self i, hc⟩)))
        (fun _ h => h) fun r g hg => ?_
      split
      · trivial
      · exact hg
    · rw [if_neg (by decide)]
      exact hg.mono fun q hq => hq.succ hc
  refine contract_bind contract_setAllInput fun _ =>
    contract_mono (contract_forEach (E := fun _ => True) gpioPinMax 0 hround)
    (fun g _ q hq => absurd hq.1 (Nat.not_lt_zero q)) fun r g hg hr => ?_
  rw [if_neg (Int.not_lt.2 hr)] at hg
  exact hg.mono fun q hq => ⟨by rw [Nat.zero_add]; exact busPins_lt hq, hq⟩

theorem keeps_portdirSnd : Keeps E G S fun _ => ficCommPortdir b .snd :=
  keeps_forDo _ _ fun _ _ _ => keeps_setInputOutput

theorem contract_portdirRcv :
    Contract (E.bench G) (Outs (BusPins b)) (fun _ => ficCommPortdir b .rcv) fun _ =>
      Outs (StrobePins b) := by
  have hstrobe : ∀ i, b.rpDataLow ≤ i → i < b.rpDataLow + b.width →
      Keeps E G (StrobePins b) fun _ => issue (.setInput i) := by
    intro i h1 h2
    have hi : dataPin b i = true := dataPin_iff.2 ⟨h1, h2⟩
    have := board_apart (b := b)
    refine contract_setInput fun q hq => ⟨hq, fun e => ?_⟩
    subst e
    rcases hq with rfl | rfl
    · exact dataPin_ne hi this.1 rfl
    · exact dataPin_ne hi this.2.1 rfl
  refine contract_mono (keeps_forDo b.rpDataLow b.width hstrobe)
    (fun g hg => hg.mono fun q hq => ?_) fun _ _ h => h
  rcases hq with rfl | rfl
  · exact busPins_rreq
  · exact busPins_rstb

/-! ## Register access -/

section
variable {Pre : Gpio → Prop}

theorem contract_ficCommReset : Contract (E.bench G) Pre (fun n => ficCommReset b n) Anyhow :=
  contract_open contract_ficCommSetup <| Keeps.anyhow <|
    keeps_check (keeps_ficClrGpio (within_pin busPins_rreq)) <|
    keeps_check (keeps_ficSetGpio (within_pin busPins_rstb)) (keeps_ret _)

theorem keeps_busSend {bus : BitVec 32} (w : BitVec b.width) (hw : bus = busWord b w) :
    Keeps E G (BusPins b) fun n => ficCommSend b n bus := keeps_ficCommSend busPins_rstb busPins_data w hw

theorem keeps_busSetaddr (addr : BitVec 16) : Keeps E G (BusPins b) fun n => ficCommSetaddr b n addr :=
  keeps_ficCommSetaddr busPins_rstb busPins_data addr

theorem keeps_raiseRreq : Keeps E G (BusPins b) fun n => ficSetGpio n (rpPin b.rpRreq) :=
  keeps_ficSetGpio (within_pin busPins_rreq)

theorem contract_ficWrite (addr data : BitVec 16)
    (hm : ∀ g, Outs (BusPins b) g →
      G.allows (.clr (rpPin b.rpRreq ||| rpPin b.rpRstb ||| b.commDatabusMask)) g) :
    Contract (E.bench G) Pre (fun n => ficWrite b n addr data) Anyhow := by
  refine contract_open contract_ficCommSetup ?_
  refine contract_bind keeps_portdirSnd fun _ => ?_
  refine contract_step keeps_raiseRreq ?_
  refine contract_step (keeps_busSend _ (cmd_busWord b .write)) ?_
  refine contract_step (keeps_busSetaddr addr) (contract_step ?_ (contract_release hm))
  cases b with
  | mk1 =>
    exact keeps_check (keeps_busSend _ (nibble_busWord data 1 (by decide))) <|
      keeps_check (keeps_busSend _ (lowNibble_busWord data)) (keeps_ret _)
  | mk2 => exact keeps_check (keeps_busSend (b := .mk2) data rfl) (keeps_ret _)

theorem contract_checkVal {p : Nat → P Int} {k : Nat → Int → P Int} (hp : Keeps E G S p)
    (hk : ∀ i, Contract (E.bench G) (Outs S) (fun n => k n i) Anyhow) :
    Contract (E.bench G) (Outs S) (fun n => checkVal (p n) (k n)) Anyhow :=
  contract_bind hp fun i => contract_if (fun _ => contract_ret fun _ _ => trivial) fun _ => hk i

theorem contract_ficRead (addr : BitVec 16) :
    Contract (E.bench G) Pre (fun n => ficRead b n addr) Anyhow := by
  have hrstb : StrobePins b b.rpRstb := .inr rfl
  have hrelease : ∀ r : Int, Contract (E.bench G) (Outs (StrobePins b))
      (fun n => check (ficClrGpio n (rpPin b.rpRreq)) <|
      check (ficCommWaitFreqDown b n) <| do
      setAllInput
      ret r) Anyhow := fun r => contract_release (allows_clr (within_pin (.inl rfl)))
  refine contract_open contract_ficCommSetup ?_
  refine contract_bind keeps_portdirSnd fun _ => ?_
  refine contract_step keeps_raiseRreq ?_
  refine contract_step (keeps_busSend _ (cmd_busWord b .read)) ?_
  refine contract_step (keeps_busSetaddr addr) (contract_bind contract_portdirRcv fun _ => ?_)
  cases b with
  | mk1 =>
    exact contract_checkVal (keeps_ficCommReceive hrstb) fun _ =>
      contract_checkVal (keeps_ficCommReceive hrstb) fun _ => hrelease _
  | mk2 => exact contract_checkVal (keeps_ficCommReceive hrstb) fun _ => hrelease _

/-! ## HLS transfers -/

/-- The outputs during a transfer. -/
def TransferPins (b : Board) (cmd : RasioCmd) : Nat → Prop :=
  if cmd = .read then StrobePins b else BusPins b

theorem contract_ficHlsCommInitiate (cmd : RasioCmd) :
    Contract (E.bench G) Pre (fun n => ficHlsCommInitiate b n cmd) (Gives (TransferPins b cmd)) := by
  have hend : Contract (E.bench G) (Outs (BusPins b)) (fun _ => do
      when (cmd == .read) (ficCommPortdir b .rcv)
      ret 0) (Gives (TransferPins b cmd)) := by
    unfold TransferPins
    refine contract_bind
      (contract_when (R := fun _ => Outs (if cmd = .read then StrobePins b else BusPins b))
      (fun hc => ?_) fun hc g hg => ?_) fun _ => contract_ret fun _ hg _ => hg
    · rw [if_pos (beq_iff_eq.1 hc)]
      exact contract_portdirRcv
    · rwa [if_neg (beq_eq_false_iff_ne.1 hc)]
  have hstep : ∀ {q k : Nat → P Int}, Keeps E G (BusPins b) q →
      Contract (E.bench G) (Outs (BusPins b)) k (Gives (TransferPins b cmd)) →
      Contract (E.bench G) (Outs (BusPins b)) (fun n => check (q n) (k n)) (Gives (TransferPins b cmd)) :=
    fun hq hk => contract_checkOr hq (fun _ _ _ _ hneg => absurd hneg (by decide))
      (contract_mono hk (fun _ ⟨_, _, h⟩ => h) fun _ _ h => h)
  refine contract_checkOr contract_ficCommSetup (fun _ _ _ _ hneg => absurd hneg (by decide)) ?_
  refine contract_mono (contract_bind keeps_portdirSnd fun _ => ?_)
    (fun _ ⟨_, hr, h⟩ => h hr) fun _ _ h => h
  exact hstep keeps_raiseRreq
    (hstep (keeps_busSend _ (cmd_busWord b cmd)) (hstep (keeps_busSetaddr commAddrHls) hend))

theorem contract_ficHlsCommTerminate (hr : S b.rpRreq) (hs : S b.rpRstb) :
    Contract (E.bench G) (Outs S) (fun n => ficHlsCommTerminate b n) Anyhow :=
  contract_release (allows_clr (within_or (within_pin hr) (within_pin hs)))

/-- The last step of a call. -/
theorem contract_last {q : Nat → P Int} {a e : α} (hq : Contract (E.bench G) Pre q Anyhow) :
    Contract (E.bench G) Pre (fun n => checkOr e (q n) (ret a)) Anyhow :=
  contract_checkOr hq (fun _ _ _ _ => trivial) (contract_ret fun _ _ => trivial)

theorem keeps_busSendBytes (data : Mem) (size : Nat) :
    Keeps E G (BusPins b) fun n => ficHlsSendBytes b n data size :=
  keeps_ficHlsSendBytes busPins_rstb busPins_data data size

theorem contract_ficHlsSend (data : Mem) (size : Nat) :
    Contract (E.bench G) Pre (fun n => ficHlsSend b n data size) Anyhow :=
  contract_open (contract_ficHlsCommInitiate .write) <| contract_step (keeps_busSendBytes data size) <|
    contract_last (contract_ficHlsCommTerminate busPins_rreq busPins_rstb)

theorem contract_ficHlsWrite (data : Mem) (size : Nat) (addr ctrl : BitVec 32) :
    Contract (E.bench G) Pre (fun n => ficHlsWrite b n data size addr ctrl) Anyhow :=
  contract_open (contract_ficHlsCommInitiate .write) <| contract_step (keeps_busSendBytes _ 12) <|
    contract_step (keeps_busSendBytes data size) <|
      contract_last (contract_ficHlsCommTerminate busPins_rreq busPins_rstb)

theorem contract_ficHlsReceive (buf : Mem) (size : Nat) :
    Contract (E.bench G) Pre (fun n => ficHlsReceive b n buf size) Anyhow := by
  refine contract_open (contract_ficHlsCommInitiate .read) ?_
  refine contract_bind (keeps_ficHlsReceiveBytes (.inr rfl) buf size) fun _ => ?_
  refine contract_if (fun _ => contract_ret fun _ _ => trivial) fun _ => ?_
  exact contract_last (contract_ficHlsCommTerminate (.inl rfl) (.inr rfl))

/-- `fic_hls_read` sends the header and then receives. -/
theorem contract_ficHlsRead (buf : Mem) (size : Nat) (addr ctrl : BitVec 32) :
    Contract (E.bench G) Pre (fun n => ficHlsRead b n buf size addr ctrl) Anyhow :=
  contract_checkOr (contract_ficHlsSend _ 12) (fun _ _ _ _ => trivial) (contract_ficHlsReceive buf size)

theorem contract_ficHlsDdrDebug (buf : Mem) (size : Nat) (addr : BitVec 32) :
    Contract (E.bench G) Pre (fun n => ficHlsDdrDebug b n buf size addr) Anyhow := by
  refine contract_bind (contract_ficHlsSend _ 12) fun _ => ?_
  refine contract_bind (contract_ficHlsReceive buf 12) fun _ => ?_
  exact contract_if (fun _ => contract_ret fun _ _ => trivial) fun _ => contract_ret fun _ _ => trivial

theorem contract_hlsCommand (cmd : RasioCmd) :
    Contract (E.bench G) Pre (fun n => hlsCommand b n cmd) Anyhow := by
  refine contract_open contract_ficCommSetup ?_
  refine contract_bind keeps_portdirSnd fun _ => ?_
  refine contract_step keeps_raiseRreq ?_
  refine contract_step (keeps_busSend _ (cmd_busWord b cmd)) ?_
  exact contract_release (allows_clr (within_pin busPins_rreq))

end

/-! ## Configuration: pins and reset -/

/-- The pins that `fic_prog_init_smN` drives, for `n` data pins. -/
def ProgPins (b : Board) (n p : Nat) : Prop := smHighPin b p = true ∨ smLowPin n p = true

section
variable {n : Nat} {Pre : Gpio → Prop}

theorem progPins_cclk : ProgPins b n rpCclk :=
  .inr (by unfold smLowPin; rw [beq_self_eq_true, Bool.true_or])

theorem progPins_data {p : Nat} (h1 : 8 ≤ p) (h2 : p < 8 + n) : ProgPins b n p := by
  refine .inr ?_
  unfold smLowPin
  rw [rpCd, rpCd, decide_eq_true (show 8 + 0 ≤ p by omega), decide_eq_true h2, Bool.and_self, Bool.or_true]

theorem progPins_high {p : Nat} (h : smHighPin b p = true) : ProgPins b n p := .inl h

theorem progPins_lt (hn : n ≤ 16) {p : Nat} (h : ProgPins b n p) : p < gpioPinMax + 1 := by
  rcases h with h | h
  · cases b <;> (unfold smHighPin at h; simp at h ⊢; omega)
  · unfold smLowPin at h
    simp only [Bool.or_eq_true, Bool.and_eq_true, decide_eq_true_eq, beq_iff_eq] at h
    simp only [rpCclk, rpCd, gpioPinMax, rpRdwrB] at h ⊢
    omega

/-- CFSEL, on the board that has it. -/
def raiseCfsel (b : Board) (fuel : Nat) : P Int :=
  match b with
  | .mk1 => ret 0
  | .mk2 => do
    issue (.setOutput rpCfsel)
    check (ficSetGpio fuel (rpPin rpCfsel)) (ret 0)

theorem keeps_raiseCfsel (h : b = .mk2 → S rpCfsel) : Keeps E G S fun m => raiseCfsel b m := by
  cases b with
  | mk1 => exact keeps_ret _
  | mk2 =>
    exact keeps_bind (contract_setOutput fun _ h => h) fun _ =>
      keeps_check (keeps_ficSetGpio (within_pin (h rfl))) (keeps_ret _)

/-- The outputs after the first half of the round of pin `i`. -/
def HalfRound (A : Nat → Prop) (high : Bool) (i p : Nat) : Prop := Below A i p ∨ (p = i ∧ high = true)

theorem contract_smRound :
    Contract (E.bench G) (Outs (Below (ProgPins b n) i)) (fun m => do
      when (smInputPin b i) (issue (.setInput i))
      check (if smHighPin b i then do
          setInputOutput i
          check (ficSetGpio m (rpPin i)) (ret 0)
        else ret 0) <|
        if smLowPin n i then do
          setInputOutput i
          check (ficClrGpio m (rpPin i)) (ret 0)
        else ret 0) fun r g => if r < 0 then True else Outs (Below (ProgPins b n) (i + 1)) g := by
  refine contract_bind (contract_when (fun _ => contract_setInput fun q hq => ⟨hq, Nat.ne_of_lt hq.1⟩)
    fun _ _ h => h) fun _ => ?_
  have hhigh : Contract (E.bench G) (Outs (Below (ProgPins b n) i))
      (fun m => if smHighPin b i = true then do
          setInputOutput i
          check (ficSetGpio m (rpPin i)) (ret 0)
        else ret 0) fun _ => Outs (HalfRound (ProgPins b n) (smHighPin b i) i) := by
    refine contract_if (fun h => ?_) fun h => contract_ret fun g hg => hg.mono fun q hq =>
      hq.resolve_right fun e => h e.2
    exact contract_bind (contract_setInputOutput fun q hq => hq.imp_right And.left) fun _ =>
      keeps_check (keeps_ficSetGpio (within_pin (.inr ⟨rfl, h⟩))) (keeps_ret _)
  refine contract_checkOr hhigh (fun _ _ _ _ => by rw [if_pos (by decide)]; trivial) ?_
  refine contract_mono (contract_if (fun h => ?_) fun h => contract_ret fun g hg => ?_)
    (fun _ ⟨_, _, h⟩ => h) fun _ _ h => h
  · have hdrive : Contract (E.bench G) (Outs (HalfRound (ProgPins b n) (smHighPin b i) i)) (fun m => do
        setInputOutput i
        check (ficClrGpio m (rpPin i)) (ret 0)) fun _ => Outs (Below (ProgPins b n) (i + 1)) :=
      contract_bind (contract_setInputOutput fun q hq =>
        (Nat.lt_succ_iff_lt_or_eq.1 hq.1).imp_left fun hlt => .inl ⟨hlt, hq.2⟩) fun _ =>
        keeps_check (keeps_ficClrGpio (within_pin ⟨Nat.lt_succ_self i, .inr h⟩)) (keeps_ret _)
    refine contract_mono hdrive (fun _ hg => hg) fun r g hg => ?_
    split
    · trivial
    · exact hg
  · rw [if_neg (by decide)]
    refine hg.mono fun q hq => ?_
    rcases Nat.lt_succ_iff_lt_or_eq.1 hq.1 with hlt | rfl
    · exact .inl ⟨hlt, hq.2⟩
    · exact .inr ⟨rfl, hq.2.resolve_right h⟩

theorem contract_ficProgInitSm (hn : n ≤ 16) :
    Contract (E.bench G) Pre (fun m => ficProgInitSm b m n) (Gives (ProgPins b n)) := by
  -- no pin is below 0, and no output is needed at the start
  have hrounds := contract_forEach (B := E.bench G) (I := fun i => Outs (Below (ProgPins b n) i))
    (E := fun _ => True) (gpioPinMax + 1) 0 fun i _ _ => contract_smRound (b := b) (n := n) (i := i)
  have hstart : ∀ g, Outs (fun _ => False) g → Outs (Below (ProgPins b n) 0) g :=
    fun g _ q hq => absurd hq.1 (Nat.not_lt_zero q)
  refine contract_bind contract_setAllInput fun _ => ?_
  refine contract_checkOr (contract_mono hrounds hstart fun _ _ h => h)
    (fun _ _ _ _ hneg => absurd hneg (by decide)) ?_
  have hpins : ∀ g, (∃ r : Int, 0 ≤ r ∧ if r < 0 then True
      else Outs (Below (ProgPins b n) (0 + (gpioPinMax + 1))) g) → Outs (ProgPins b n) g := by
    rintro g ⟨r, hr, hg⟩
    rw [if_neg (Int.not_lt.2 hr)] at hg
    exact hg.mono fun q hq => ⟨by rw [Nat.zero_add]; exact progPins_lt hn hq, hq⟩
  have hcfsel : Keeps E G (ProgPins b n) fun m => raiseCfsel b m :=
    keeps_raiseCfsel fun hb => progPins_high (by subst hb; decide)
  exact contract_mono hcfsel hpins fun _ _ hg _ => hg

end

end Libfic2
