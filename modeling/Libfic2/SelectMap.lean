import Libfic2.Hls

/-!
# FPGA configuration: `fic_prog_*` of `ficlib2.c`

The four programming functions set up the pins (`fic_prog_init_sm8`,
`fic_prog_init_sm16`), reset the FPGA or not according to the mode
(`fic_prog_init`), clock the bitstream out (the data loop), wait for DONE in
PM_NORMAL, and leave all pins inputs.  They share everything but the width of
the bus, the data loop and a test of INIT after it: `progLoad` is the part up to
the end of the loop, `progFinish` the part after it, and a jump to the
`EXIT_ERROR` label is the answer `none`.

`data` is the memory from the bitstream on, so that the look-ahead of the fast
loops can be followed past its end.
-/

namespace Libfic2

open Driver Prog

variable (b : Board) (fuel : Nat)

/-! ## Pin set-up and reset -/

/-- The pins `fic_prog_init_smN` sets to input one by one. -/
def smInputPin (i : Nat) : Bool :=
  i == rpPwok || i == rpInit || i == rpDone || match b with
    | .mk1 => i == rpGCksel
    | .mk2 => false

/-- The pins it drives high. -/
def smHighPin (i : Nat) : Bool :=
  i == rpProgB || i == rpCsiB || i == rpRdwrB || match b with
    | .mk1 => false
    | .mk2 => i == rpCfsel

/-- The pins it drives low: CCLK and CD0 .. CD(n-1). -/
def smLowPin (n i : Nat) : Bool := i == rpCclk || (decide (rpCd 0 ≤ i) && decide (i < rpCd n))

/-- `fic_prog_init_sm8` and `fic_prog_init_sm16`, for `n` data pins. -/
def ficProgInitSm (n : Nat) : P Int := do
  setAllInput
  check (forEach (fun i => do
      when (smInputPin b i) (issue (.setInput i))
      check (if smHighPin b i then do
          setInputOutput i
          check (ficSetGpio fuel (rpPin i)) (ret 0)
        else ret 0) <|
        if smLowPin n i then do
          setInputOutput i
          check (ficClrGpio fuel (rpPin i)) (ret 0)
        else ret 0) 0 (gpioPinMax + 1)) <|
    match b with
    | .mk1 => ret 0
    | .mk2 => do
      issue (.setOutput rpCfsel)
      check (ficSetGpio fuel (rpPin rpCfsel)) (ret 0)

def ficProgInitSm16 : P Int := ficProgInitSm b fuel 16
def ficProgInitSm8 : P Int := ficProgInitSm b fuel 8

/-- `while (GET_GPIO_PIN(RP_INIT) == 0) { (GET_GPIO); usleep(1000); }` -/
def awaitInit : P Int :=
  loop (issue .get >>= fun v =>
    if getPin v rpInit == 0#32 then issue .get >>= fun _ => ret none else ret (some 0)) fuel

def pinsProgCsiRdwr : BitVec 32 := rpPin rpProgB ||| rpPin rpCsiB ||| rpPin rpRdwrB
def pinsCsiRdwr : BitVec 32 := rpPin rpCsiB ||| rpPin rpRdwrB

def ficProgInit (pm : ProgMode) : P Int :=
  check (match b with
    | .mk1 => ret 0
    | .mk2 => do
      issue (.setOutput rpCfsel)
      check (ficSetGpio fuel (rpPin rpCfsel)) (ret 0)) <| do
  setInputOutput rpProgB
  setInputOutput rpCsiB
  setInputOutput rpRdwrB
  check (ficSetGpio fuel pinsProgCsiRdwr) <|
    if pm = .pr then
      check (ficClrGpio fuel pinsCsiRdwr) (ret 0)
    else
      check (ficSetGpio fuel pinsProgCsiRdwr) <|
      check (ficClrGpio fuel pinsProgCsiRdwr) <|
      check (ficSetGpio fuel (rpPin rpProgB)) <|
      check (awaitInit fuel) <| do
      let v ← issue .get
      if getPin v rpDone == 1#32 then ret (-1) else ret 0

/-! ## Clock bursts -/

/-- `for (i = 0; i < 2; i++) SET_GPIO = out;` -/
def gpioHold (out : BitVec 32) : P Unit := forDo (fun _ => issue (.set out)) 0 2

/-- `_toggle_cclk16`, `_toggle_cclk12`, `_toggle_cclk8` and `_toggle_cclk4`, for `n` clocks. -/
def toggleCclk (n : Nat) : P Unit :=
  forDo (fun _ => do
    forDo (fun _ => issue (.clr (rpPin rpCclk))) 0 2
    forDo (fun _ => issue (.set (rpPin rpCclk))) 0 2) 0 n

def toggleCclk16 : P Unit := toggleCclk 16
def toggleCclk12 : P Unit := toggleCclk 12
def toggleCclk8 : P Unit := toggleCclk 8
def toggleCclk4 : P Unit := toggleCclk 4

/-! ## Plain data loops -/

def addTx (n : Nat) : P Unit := issue (.stat fun st => { st with txSize := st.txSize + n })

/-- The end of a round of the plain loops: the progress counter, the progress report (which only
reads the clock), and the test of INIT. -/
def plainRoundEnd (n : Nat) : P Int := do
  addTx n
  let _ ← issue .time
  let v ← issue .get
  if getPin v rpInit == 0#32 then ret (-1) else ret 0

/-- `0x0000ff00` and `0x00ffff00`, the data pins of x8 and x16. -/
def mask8 : BitVec 32 := 0x0000ff00#32
def mask16 : BitVec 32 := 0x00ffff00#32

/-- `data[i] << 8`. -/
def word8 (data : Mem) (i : Nat) : BitVec 32 := (data i).setWidth 32 <<< 8

/-- `(data[i+1] << 8 | data[i]) << 8`. -/
def word16 (data : Mem) (i : Nat) : BitVec 32 :=
  (((data (i + 1)).setWidth 32 <<< 8) ||| (data i).setWidth 32) <<< 8

/-- One round of the loop of `fic_prog_sm8` up to the progress counter. -/
def plainRound8 (d d' : BitVec 32) : P Int :=
  if d = d' then do
    let _ ← ficClrGpioFast fuel (rpPin rpCclk)
    issue (.set (rpPin rpCclk))
    ret 0
  else do
    issue (.clr ((~~~d &&& mask8) ||| rpPin rpCclk))
    issue (.set (d &&& mask8))
    issue (.set ((d &&& mask8) ||| rpPin rpCclk))
    ret 0

/-- One round of the loop of `fic_prog_sm16` up to the progress counter. -/
def plainRound16 (d d' : BitVec 32) : P Int :=
  if d = d' then do
    let r1 ← ficClrGpioFast fuel (rpPin rpCclk)
    let r2 ← ficSetGpioFast fuel (rpPin rpCclk)
    ret (intOr (intOr 0 r1) r2)
  else do
    let r1 ← ficClrGpio fuel ((~~~d &&& mask16) ||| rpPin rpCclk)
    let r2 ← ficSetGpio fuel (d &&& mask16)
    let r3 ← ficSetGpio fuel ((d &&& mask16) ||| rpPin rpCclk)
    ret (intOr (intOr (intOr 0 r1) r2) r3)

/-- The loop of `fic_prog_sm8` from index `i` on, `n` rounds before `i < size` fails, with previous
word `d'`; answers the final `i`. -/
def plainLoop8 (data : Mem) : (n i : Nat) → (d' : BitVec 32) → P (Option Nat)
  | 0, i, _ => ret (some i)
  | n + 1, i, d' =>
    checkOr none (plainRound8 fuel (word8 data i) d') <|
    checkOr none (plainRoundEnd 1) <|
    plainLoop8 data n (i + 1) (word8 data i)

/-- The loop of `fic_prog_sm16`, which steps by two. -/
def plainLoop16 (data : Mem) : (n i : Nat) → (d' : BitVec 32) → P (Option Nat)
  | 0, i, _ => ret (some i)
  | n + 1, i, d' =>
    checkOr none (plainRound16 fuel (word16 data i) d') <|
    checkOr none (plainRoundEnd 2) <|
    plainLoop16 data n (i + 2) (word16 data i)

/-! ## Fast data loops -/

/-- `data[i+k .. i+k+n-1]` all equal `d`, tested left to right. -/
def same8 (data : Mem) (d : BitVec 8) (i k : Nat) : (n : Nat) → Bool
  | 0 => true
  | n + 1 => d == data (i + k) && same8 data d i (k + 1) n

/-- The words at `i+2k .. i+2(k+n-1)` all equal `(hi, lo)`. -/
def same16 (data : Mem) (hi lo : BitVec 8) (i k : Nat) : (n : Nat) → Bool
  | 0 => true
  | n + 1 => (hi == data (i + 2 * k + 1) && lo == data (i + 2 * k)) && same16 data hi lo i (k + 1) n

/-- A single repeated word of the fast loops. -/
def fastRepeat : P Unit := do
  let _ ← ficClrGpioFast fuel (rpPin rpCclk)
  gpioHold (rpPin rpCclk)

/-- A new word of the fast loops. -/
def fastWrite (db mask : BitVec 32) : P Unit := do
  issue (.clr ((~~~db &&& mask) ||| rpPin rpCclk))
  issue (.set (db &&& mask))
  gpioHold ((db &&& mask) ||| rpPin rpCclk)

/-- The body of the loop of `fic_prog_sm8_fast` up to the progress counter; answers what it adds
to `i`. -/
def fastRound8 (data : Mem) (i : Nat) (d' : BitVec 8) : P Nat :=
  let d := data i
  if d = d' then
    if same8 data d i 1 3 then
      if same8 data d i 4 4 then
        if same8 data d i 8 4 then
          if same8 data d i 12 4 then do toggleCclk16; ret 15
          else do toggleCclk12; ret 11
        else do toggleCclk8; ret 7
      else do toggleCclk4; ret 3
    else do fastRepeat fuel; ret 0
  else do fastWrite (d.setWidth 32 <<< 8) mask8; ret 0

/-- The body of the loop of `fic_prog_sm16_fast` up to the progress counter. -/
def fastRound16 (data : Mem) (i : Nat) (hi' lo' : BitVec 8) : P Nat :=
  let hi := data (i + 1)
  let lo := data i
  if hi = hi' ∧ lo = lo' then
    if same16 data hi lo i 1 3 then
      if same16 data hi lo i 4 4 then do toggleCclk8; ret 14
      else do toggleCclk4; ret 6
    else do fastRepeat fuel; ret 0
  else do fastWrite (((hi.setWidth 32 <<< 8) ||| lo.setWidth 32) <<< 8) mask16; ret 0

/-- `for (; i < size; i++)` of `fic_prog_sm8_fast`, for at most `n` rounds (`size` are enough). -/
def fastLoop8 (data : Mem) (size : Nat) : (n i : Nat) → (d' : BitVec 8) → P (Option Nat)
  | 0, _, _ => hang
  | n + 1, i, d' =>
    if i < size then do
      let k ← fastRound8 fuel data i d'
      addTx 1
      fastLoop8 data size n (i + k + 1) (data i)
    else ret (some i)

/-- `for (; i < size; i+=2)` of `fic_prog_sm16_fast`. -/
def fastLoop16 (data : Mem) (size : Nat) : (n i : Nat) → (hi' lo' : BitVec 8) → P (Option Nat)
  | 0, _, _, _ => hang
  | n + 1, i, hi', lo' =>
    if i < size then do
      let k ← fastRound16 fuel data i hi' lo'
      addTx 2
      fastLoop16 data size n (i + k + 2) (data (i + 1)) (data i)
    else ret (some i)

/-! ## The programming functions -/

/-- What is written to `PROG_STAT` at entry. -/
def progBegin (smap : ProgSmapMode) (size : Nat) (pm : ProgMode) : P Unit := do
  issue (.stat fun st => { st with stat := .prog })
  issue (.stat fun st => { st with smapMode := smap })
  issue (.stat fun st => { st with progMode := pm })
  let t ← issue .clock
  issue (.stat fun st => { st with progStTime := t })
  issue (.stat fun st => { st with progSize := size })
  issue (.stat fun st => { st with txSize := 0 })

/-- SET_ALL_INPUT and the final status. -/
def progEnd (st : ProgStatus) (n : Nat) : P Nat := do
  setAllInput
  issue (.stat fun s => { s with stat := st })
  let t ← issue .clock
  issue (.stat fun s => { s with progEdTime := t })
  ret n

/-- The part before the data loop: pins, reset, CCLK low; -1 is a jump to the error label. -/
def progSetup (n : Nat) (pm : ProgMode) : P Int :=
  check (ficProgInitSm b fuel n) <|
  check (ficProgInit b fuel pm) <|
  check (ficClrGpio fuel (rpPin rpCclk)) <|
  ret 0

/-- Wait for DONE, clocking. -/
def awaitDone : P Int := do
  let t1 ← issue .time
  loop (do
    let v ← issue .get
    if getPin v rpDone == 0#32 then do
      let t2 ← issue .time
      let w ← issue .get
      if getPin w rpInit == 0#32 || decide (t2 - t1 > commTimeout) then ret (some (-1)) else
      checkOr (some (-1)) (ficSetGpio fuel (rpPin rpCclk)) <|
      checkOr (some (-1)) (ficClrGpio fuel (rpPin rpCclk)) <|
      ret none
    else ret (some 0)) fuel

/-- The part after the data loop. -/
def progWait (mask : BitVec 32) (pm : ProgMode) : P Int :=
  if pm = .normal then
    check (awaitDone fuel) <|
    check (ficClrGpio fuel (mask ||| rpPin rpCclk)) <|
    ret 0
  else ret 0

/-- The test of INIT after a fast loop. -/
def fastInitTest : P Int := do
  let v ← issue .get
  if getPin v rpInit == 0#32 then ret (-1) else ret 0

/-- The test of INIT after a plain loop, which has tested it in every round: none. -/
def plainInitTest : P Int := ret 0

/-- A programming function up to the end of its data loop `body`; `none` is a jump to the error
label. -/
def progLoad (smap : ProgSmapMode) (n : Nat) (body : P (Option Nat)) (size : Nat) (pm : ProgMode) :
    P (Option Nat) := do
  progBegin smap size pm
  checkOr none (progSetup b fuel n pm) do
    let _ ← issue .time
    body

/-- What follows: the test of INIT, the wait for DONE, and the two exits. -/
def progFinish (test : P Int) (mask : BitVec 32) (pm : ProgMode) : Option Nat → P Nat
  | none => progEnd .fail 0
  | some i => do
    let w ← check test (progWait fuel mask pm)
    if w < 0 then progEnd .fail 0 else progEnd .done i

def ficProgSm8Load (data : Mem) (size : Nat) (pm : ProgMode) : P (Option Nat) :=
  progLoad b fuel .smap8 8 (plainLoop8 fuel data size 0 0#32) size pm

def ficProgSm16Load (data : Mem) (size : Nat) (pm : ProgMode) : P (Option Nat) :=
  progLoad b fuel .smap16 16 (plainLoop16 fuel data ((size + 1) / 2) 0 0#32) size pm

def ficProgSm8FastLoad (data : Mem) (size : Nat) (pm : ProgMode) : P (Option Nat) :=
  progLoad b fuel .smap8 8 (fastLoop8 fuel data size (size + 1) 0 0#8) size pm

def ficProgSm16FastLoad (data : Mem) (size : Nat) (pm : ProgMode) : P (Option Nat) :=
  progLoad b fuel .smap16 16 (fastLoop16 fuel data size (size + 1) 0 0#8 0#8) size pm

def ficProgSm8 (data : Mem) (size : Nat) (pm : ProgMode) : P Nat :=
  ficProgSm8Load b fuel data size pm >>= progFinish fuel plainInitTest mask8 pm

def ficProgSm16 (data : Mem) (size : Nat) (pm : ProgMode) : P Nat :=
  ficProgSm16Load b fuel data size pm >>= progFinish fuel plainInitTest mask16 pm

def ficProgSm8Fast (data : Mem) (size : Nat) (pm : ProgMode) : P Nat :=
  ficProgSm8FastLoad b fuel data size pm >>= progFinish fuel fastInitTest mask8 pm

def ficProgSm16Fast (data : Mem) (size : Nat) (pm : ProgMode) : P Nat :=
  ficProgSm16FastLoad b fuel data size pm >>= progFinish fuel fastInitTest mask16 pm

/-! ## The four functions under one head -/

inductive ProgFn | sm8 | sm16 | sm8Fast | sm16Fast
deriving DecidableEq, Repr

namespace ProgFn

def smap : ProgFn → ProgSmapMode
  | sm8 | sm8Fast => .smap8
  | sm16 | sm16Fast => .smap16

/-- Number of data pins. -/
def lanes : ProgFn → Nat
  | sm8 | sm8Fast => 8
  | sm16 | sm16Fast => 16

def mask : ProgFn → BitVec 32
  | sm8 | sm8Fast => mask8
  | sm16 | sm16Fast => mask16

def initTest : ProgFn → P Int
  | sm8 | sm16 => plainInitTest
  | sm8Fast | sm16Fast => fastInitTest

/-- The data loop. -/
def body (data : Mem) (size : Nat) : ProgFn → P (Option Nat)
  | sm8 => plainLoop8 fuel data size 0 0#32
  | sm16 => plainLoop16 fuel data ((size + 1) / 2) 0 0#32
  | sm8Fast => fastLoop8 fuel data size (size + 1) 0 0#8
  | sm16Fast => fastLoop16 fuel data size (size + 1) 0 0#8 0#8

def prog (data : Mem) (size : Nat) (pm : ProgMode) : ProgFn → P Nat
  | sm8 => ficProgSm8 b fuel data size pm
  | sm16 => ficProgSm16 b fuel data size pm
  | sm8Fast => ficProgSm8Fast b fuel data size pm
  | sm16Fast => ficProgSm16Fast b fuel data size pm

theorem prog_eq (f : ProgFn) (data : Mem) (size : Nat) (pm : ProgMode) :
    f.prog b fuel data size pm =
      progLoad b fuel f.smap f.lanes (f.body fuel data size) size pm >>=
      progFinish fuel f.initTest f.mask pm := by
  cases f <;> rfl

end ProgFn

end Libfic2
