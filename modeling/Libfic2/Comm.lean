import Libfic2.Gpio

/-!
# The register interface: `ficlib2.c` up to `fic_read`

Waiting loops come in three kinds: `pollTimed` (gives up when `time` has moved
more than COMM_TIMEOUT seconds), `pollCounted` (gives up after COMM_TIMEOUT_NUM
rounds) and `spin` (never gives up).  `fuel` bounds the rounds of the first and
the last; a call that needs more is still waiting (`hang`).

`fic_comm_send` and `fic_comm_receive` run the four-phase handshake for one word:
RSTB up, FACK up, RSTB down, FACK down; their `_fast` forms leave out the last
wait.  A transaction raises RREQ, sends a command and an address, moves data
words, and ends with RREQ down, FREQ down and all pins inputs.
-/

namespace Libfic2

open Driver Prog

def commTimeout : Int := 10
def commTimeoutNum : Nat := 0x00ffffff

variable (b : Board) (fuel : Nat)

/-! ## Waiting -/

/-- `while (c(GET_GPIO)) asm("nop");` -/
def spin (c : BitVec 32 → Bool) : P Int :=
  loop (issue .get >>= fun v => if c v then ret none else ret (some 0)) fuel

/-- `time(&t1); while (c(GET_GPIO)) { time(&t2); if (t2 - t1 > COMM_TIMEOUT) return -1; } return 0;` -/
def pollTimed (c : BitVec 32 → Bool) : P Int := do
  let t1 ← issue .time
  loop (issue .get >>= fun v =>
    if c v then issue .time >>= fun t2 =>
      if t2 - t1 > commTimeout then ret (some (-1)) else ret none
    else ret (some 0)) fuel

/-- `while (c(GET_GPIO)) { if (i > COMM_TIMEOUT_NUM) return -1; i++; } return 0;`, where `n` is
the number of further rounds that `i` allows. -/
def pollCounted (c : BitVec 32 → Bool) : (n : Nat) → P Int
  | 0 => issue .get >>= fun v => if c v then ret (-1) else ret 0
  | n + 1 => issue .get >>= fun v => if c v then pollCounted c n else ret 0

section
variable {Pr : Op → Prop} (hg : Pr .get)
include hg

theorem ops_spin (c : BitVec 32 → Bool) : Ops Pr (spin fuel c) := by
  unfold spin
  refine ops_loop (ops_bind (ops_call _ hg) fun v => ?_) _
  split <;> trivial

theorem ops_pollTimed (ht : Pr .time) (c : BitVec 32 → Bool) : Ops Pr (pollTimed fuel c) := by
  unfold pollTimed
  refine ops_bind (ops_call _ ht) fun t1 => ops_loop (ops_bind (ops_call _ hg) fun v => ?_) _
  split
  · refine ops_bind (ops_call _ ht) fun t2 => ?_
    split <;> trivial
  · trivial

theorem ops_pollCounted (c : BitVec 32 → Bool) (n : Nat) : Ops Pr (pollCounted c n) := by
  induction n with
  | zero =>
    refine ops_bind (ops_call _ hg) fun v => ?_
    split <;> trivial
  | succ n ih =>
    refine ops_bind (ops_call _ hg) fun v => ?_
    split
    · exact ih
    · trivial

end

/-! ## Setting and clearing pins -/

/-- `(GET_GPIO & set) ^ set`: some pin of `set` does not read high. -/
def notSet (set v : BitVec 32) : Bool := (v &&& set) ^^^ set != 0#32

/-- `GET_GPIO & set`: some pin of `set` does not read low. -/
def notClr (set v : BitVec 32) : Bool := v &&& set != 0#32

def ficSetGpioFast (set : BitVec 32) : P Int := do
  issue (.set set)
  spin fuel (notSet set)

def ficClrGpioFast (set : BitVec 32) : P Int := do
  issue (.clr set)
  spin fuel (notClr set)

def ficSetGpio (set : BitVec 32) : P Int := do
  issue (.set set)
  pollTimed fuel (notSet set)

def ficClrGpio (set : BitVec 32) : P Int := do
  issue (.clr set)
  pollTimed fuel (notClr set)

/-! ## Set-up -/

/-- `SET_INPUT(p); SET_OUTPUT(p);` -/
def setInputOutput (p : Nat) : P Unit := do
  issue (.setInput p)
  issue (.setOutput p)

def ficDone : P Int := do
  issue (.setInput rpDone)
  let v ← issue .get
  if v &&& rpPin rpDone != 0#32 then ret 1 else ret 0

def ficPower : P Int := do
  issue (.setInput rpPwok)
  let v ← issue .get
  if v &&& rpPin rpPwok != 0#32 then ret 1 else ret 0

/-- The pins that `fic_comm_setup` drives low. -/
def commPin (i : Nat) : Bool :=
  i == b.rpRreq || i == b.rpRstb || (decide (b.rpDataLow ≤ i) && decide (i ≤ b.rpDataTop))

def ficCommSetup : P Int := do
  setAllInput
  forEach (fun i => do
    when (i == b.rpFack || i == b.rpFreq) (issue (.setInput i))
    if commPin b i then do
      setInputOutput i
      check (ficClrGpio fuel (rpPin i)) (ret 0)
    else ret 0) 0 gpioPinMax

def ficCommReset : P Int :=
  check (ficCommSetup b fuel) <|
  check (ficClrGpio fuel (rpPin b.rpRreq)) <|
  check (ficSetGpio fuel (rpPin b.rpRstb)) <|
  ret 0

/-- enum COMM_PORT_DIR. -/
inductive CommPortDir | snd | rcv
deriving DecidableEq, Repr

def ficCommPortdir : CommPortDir → P Unit
  | .snd => forDo setInputOutput b.rpDataLow b.width
  | .rcv => forDo (fun i => issue (.setInput i)) b.rpDataLow b.width

/-! ## Waiting for FACK and FREQ -/

def ficCommWaitFackDown : P Int := pollTimed fuel fun v => getPin v b.rpFack == 1#32
def ficCommWaitFackUp : P Int := pollTimed fuel fun v => getPin v b.rpFack == 0#32
def ficCommWaitFackUpNotimeout : P Int :=
  pollCounted (fun v => getPin v b.rpFack == 0#32) (commTimeoutNum + 1)
def ficCommWaitFreqDown : P Int := pollTimed fuel fun v => getPin v b.rpFreq == 1#32

/-! ## One word -/

/-- What `fic_comm_send` clears first: RSTB and the data bus. -/
def sendMask : BitVec 32 :=
  rpPin b.rpRstb ||| match b with
    | .mk1 => b.rpPinDatas 4 4
    | .mk2 => b.rpPinDatas 0 16

def ficCommSend (bus : BitVec 32) : P Int :=
  check (ficClrGpio fuel (sendMask b)) <|
  check (ficSetGpio fuel (rpPin b.rpRstb ||| bus)) <|
  check (ficCommWaitFackUp b fuel) <|
  check (ficClrGpio fuel (rpPin b.rpRstb)) <|
  check (ficCommWaitFackDown b fuel) <|
  ret 0

def ficCommSendFast (bus : BitVec 32) : P Int := do
  let r1 ← ficClrGpio fuel (sendMask b)
  let r2 ← ficSetGpioFast fuel (rpPin b.rpRstb ||| bus)
  let r3 ← ficCommWaitFackUpNotimeout b
  let r4 ← ficClrGpioFast fuel (rpPin b.rpRstb)
  ret (intOr (intOr (intOr (intOr 0 r1) r2) r3) r4)

/-- The type of `rcv` in `fic_comm_receive`: `uint8_t` on mk1, `uint16_t` on mk2. -/
def rcvMask : BitVec 32 :=
  match b with
  | .mk1 => 0xff#32
  | .mk2 => 0xffff#32

def ficCommReceive : P Int :=
  check (ficClrGpio fuel (rpPin b.rpRstb)) <|
  check (ficSetGpio fuel (rpPin b.rpRstb)) <|
  check (ficCommWaitFackUp b fuel) <| do
  let v ← issue .get
  let rcv := (v >>> b.rpDataLow) &&& rcvMask b
  check (ficClrGpio fuel (rpPin b.rpRstb)) <|
    check (ficCommWaitFackDown b fuel) <|
    ret rcv.toNat

/-- Number of reads of the bus that `fic_comm_receive_fast` throws away. -/
def fastDummies : Nat :=
  match b with
  | .mk1 => 2
  | .mk2 => 3

/-- Word width of the fast receive. -/
def fastMask : BitVec 32 :=
  match b with
  | .mk1 => 0xf#32
  | .mk2 => 0xffff#32

/-- Returns `ret` and `*rcv`, which is left alone when the wait fails. -/
def ficCommReceiveFast (rcv : BitVec 32) : P (Int × BitVec 32) := do
  let r1 ← ficClrGpioFast fuel (rpPin b.rpRstb)
  let r2 ← ficSetGpioFast fuel (rpPin b.rpRstb)
  let r3 ← ficCommWaitFackUpNotimeout b
  let r := intOr (intOr (intOr 0 r1) r2) r3
  if r < 0 then ret (r, rcv) else do
    forDo (fun _ => issue .get >>= fun _ => ret ()) 0 (fastDummies b)
    let v ← issue .get
    let r4 ← ficClrGpioFast fuel (rpPin b.rpRstb)
    ret (intOr r r4, (v >>> b.rpDataLow) &&& fastMask b)

def ficCommSetaddr (addr : BitVec 16) : P Int :=
  let a := addr.setWidth 32
  match b with
  | .mk1 =>
    check (ficCommSend .mk1 fuel (((a &&& 0xf000#32) >>> 12) <<< Board.mk1.rpDataLow)) <|
    check (ficCommSend .mk1 fuel (((a &&& 0x0f00#32) >>> 8) <<< Board.mk1.rpDataLow)) <|
    check (ficCommSend .mk1 fuel (((a &&& 0x00f0#32) >>> 4) <<< Board.mk1.rpDataLow)) <|
    check (ficCommSend .mk1 fuel ((a &&& 0x000f#32) <<< Board.mk1.rpDataLow)) <|
    ret 0
  | .mk2 =>
    check (ficCommSend .mk2 fuel ((a &&& 0xffff#32) <<< Board.mk2.rpDataLow)) <|
    ret 0

/-! ## Register access -/

/-- enum RASIO_CMD. -/
inductive RasioCmd | hlsStart | hlsReset | write | read
deriving DecidableEq, Repr

def RasioCmd.code : RasioCmd → BitVec 32
  | hlsStart => 0x01#32
  | hlsReset => 0x04#32
  | write => 0x02#32
  | read => 0x03#32

def ficWrite (addr data : BitVec 16) : P Int :=
  let d := data.setWidth 32
  check (ficCommSetup b fuel) <| do
  ficCommPortdir b .snd
  check (ficSetGpio fuel (rpPin b.rpRreq)) <|
    check (ficCommSend b fuel (RasioCmd.write.code <<< b.rpDataLow)) <|
    check (ficCommSetaddr b fuel addr) <|
    check (match b with
      | .mk1 =>
        check (ficCommSend .mk1 fuel (((d &&& 0xf0#32) >>> 4) <<< Board.mk1.rpDataLow)) <|
        check (ficCommSend .mk1 fuel ((d &&& 0x0f#32) <<< Board.mk1.rpDataLow)) <|
        ret 0
      | .mk2 =>
        check (ficCommSend .mk2 fuel (d <<< Board.mk2.rpDataLow)) <|
        ret 0) <|
    check (ficClrGpio fuel (rpPin b.rpRreq ||| rpPin b.rpRstb ||| b.commDatabusMask)) <|
    check (ficCommWaitFreqDown b fuel) <| do
    setAllInput
    ret 0

/-- `if (i < 0) return -1;` for a call whose answer `i` is used afterwards. -/
def checkVal (p : P Int) (k : Int → P Int) : P Int :=
  p >>= fun i => if i < 0 then ret (-1) else k i

def ficRead (addr : BitVec 16) : P Int :=
  check (ficCommSetup b fuel) <| do
  ficCommPortdir b .snd
  check (ficSetGpio fuel (rpPin b.rpRreq)) <|
    check (ficCommSend b fuel (RasioCmd.read.code <<< b.rpDataLow)) <|
    check (ficCommSetaddr b fuel addr) <| do
    ficCommPortdir b .rcv
    let finish (rcv : Int) : P Int :=
      check (ficClrGpio fuel (rpPin b.rpRreq)) <|
      check (ficCommWaitFreqDown b fuel) <| do
      setAllInput
      ret rcv
    match b with
    | .mk1 =>
      -- rcv = (i & 0x0f) << 4; rcv |= i & 0x0f, with rcv a uint8_t
      checkVal (ficCommReceive .mk1 fuel) fun i1 =>
        checkVal (ficCommReceive .mk1 fuel) fun i2 =>
        let hi := ((BitVec.ofInt 32 i1 &&& 0x0f#32) <<< 4).setWidth 8
        finish (hi ||| (BitVec.ofInt 32 i2 &&& 0x0f#32).setWidth 8).toNat
    | .mk2 =>
      checkVal (ficCommReceive .mk2 fuel) fun i =>
        finish ((BitVec.ofInt 32 i).setWidth 16).toNat

end Libfic2
