import Libfic2.CTypes
import Libfic2.Driver.Sessions
import Libfic2.SelectMap

/-!
# The Python wrapper: `pyficlib2.c`

The methods of the module `pyficlib2`, over their calls of the interpreter and of the library.  A
method that returns NULL answers `none`.  `stack` is what a variable holds before
`PyArg_ParseTupleAndKeywords` stores to it: "b" stores one byte of a `uint16_t`, and "I" four bytes of
a `size_t`.

A `Ledger` counts what the methods have obtained and not given back, whatever the interpreter and the
library answer.

* `py_ledger`: in a session of any calls, a buffer stays exported for each refused start in the
  background, and a block allocated for each transfer received
-/

namespace Libfic2.Py

open Driver Prog Sys

/-! ## Calls of the interpreter and of the library -/

/-- A `Py_buffer`. -/
structure Buffer where
  buf : Mem
  len : Nat

/-- Formats of `PyArg_ParseTupleAndKeywords`: "i", "y*i", "Hb", "H", "y*", "I", "II" and "y*I". -/
inductive Format | int | bufInt | shortByte | short | buf | uint | uintUint | bufUint
deriving DecidableEq, Repr

namespace Format

/-- What is stored. -/
@[reducible] def Args : Format → Type
  | int => Int
  | bufInt => Buffer × Int
  | shortByte => BitVec 16 × BitVec 8
  | short => BitVec 16
  | buf => Buffer
  | uint => BitVec 32
  | uintUint => BitVec 32 × BitVec 32
  | bufUint => Buffer × BitVec 32

def hasBuffer : Format → Bool
  | bufInt | buf | bufUint => true
  | _ => false

end Format

inductive LibCall
  | ficGpioOpen
  | ficGpioClose (fdLock : Int)
  | ficDone
  | ficPower
  | ficCommReset
  | progStat
  | ficProgAsync (smap : ProgSmapMode) (data : Mem) (size : Nat) (pm : Int)
  | ficProg (f : ProgFn) (data : Mem) (size : Nat) (pm : Int)
  | ficProgInit (pm : ProgMode)
  | ficWrite (addr data : BitVec 16)
  | ficRead (addr : BitVec 16)
  | ficHlsReset
  | ficHlsStart
  | ficHlsSend (data : Mem) (size : Nat)
  | ficHlsReceive (buf : Mem) (size : Nat)
  | ficHlsDdrRead (buf : Mem) (size : Nat) (addr : BitVec 32)
  | ficHlsDdrWrite (data : Mem) (size : Nat) (addr : BitVec 32)

/-- With the buffer afterwards, where the function fills one. -/
@[reducible] def LibCall.Answer : LibCall → Type
  | ficHlsReceive _ _ => Int × Mem
  | ficHlsDdrRead _ _ _ => Int × Mem
  | ficProg _ _ _ _ => Nat
  | progStat => ProgStat
  | _ => Int

/-- What a method returns. -/
inductive Value
  | none
  | int (v : Int)
  | bytes (size : Nat) (buf : Mem)
  | status (st : ProgStat)

/-- Where an exception has been set. -/
inductive Raised | parse | memory
deriving DecidableEq, Repr

inductive Call
  | parse (f : Format)
  | release
  | malloc (size : Nat)
  | byteArray (size : Nat) (buf : Mem)
  | buildValue (v : Value)
  | errOccurred
  | lib (c : LibCall)

@[reducible] def Call.Answer : Call → Type
  | parse f => Option f.Args
  | release => Unit
  | malloc _ => Option Mem
  | byteArray _ _ => Bool
  | buildValue _ => Bool
  | errOccurred => Option Raised
  | lib c => c.Answer

abbrev W (α : Type) := Prog Call Call.Answer α

abbrev api (c : Call) : W c.Answer := call c
abbrev lib (c : LibCall) : W c.Answer := call (Call.lib c)

/-! ## The methods -/

/-- `return Py_BuildValue(..);` -/
def buildValue (v : Value) : W (Option Value) := do
  let ok ← api (.buildValue v)
  ret (if ok then some v else none)

/-- `if (!PyArg_ParseTupleAndKeywords(..)) return NULL;` -/
def parsed (f : Format) (k : f.Args → W (Option Value)) : W (Option Value) := do
  let a ← api (.parse f)
  match a with
  | none => ret none
  | some a => k a

/-- With `PyBuffer_Release(&data);` before `return NULL;`. -/
def parsedBuffer (f : Format) (k : f.Args → W (Option Value)) : W (Option Value) := do
  let a ← api (.parse f)
  match a with
  | none => do
    api .release
    ret none
  | some a => k a

/-- `PyBuffer_Release(&data);` whether the call has failed or not. -/
def released (failed : Bool) (v : Value) : W (Option Value) := do
  api .release
  if failed then ret none else buildValue v

/-- `PyObject_Malloc(size)`, and `if (!buf) return NULL;`. -/
def allocated (size : Nat) (k : Mem → W (Option Value)) : W (Option Value) := do
  let buf ← api (.malloc size)
  match buf with
  | none => ret none
  | some buf => k buf

variable (m : DataModel) (stack : BitVec 32)

/-- "I" into a `size_t`. -/
def sizeArg (size : BitVec 32) : Nat :=
  match m with
  | .ilp32 => size.toNat
  | .lp64 => (stack ++ size).toNat

/-- "b" into a `uint16_t`. -/
def wordArg (data : BitVec 8) : BitVec 16 := stack.extractLsb' 8 8 ++ data

def pyFicGpioOpen : W (Option Value) := do
  let fdLock ← lib .ficGpioOpen
  if fdLock < 0 then ret none else buildValue (.int fdLock)

def pyFicGpioClose : W (Option Value) :=
  parsed .int fun fdLock => do
  let r ← lib (.ficGpioClose fdLock)
  if r < 0 then ret none else buildValue .none

def pyFicDone : W (Option Value) := do
  let r ← lib .ficDone
  buildValue (.int r)

def pyFicPower : W (Option Value) := do
  let r ← lib .ficPower
  buildValue (.int r)

/-- A method that answers None whatever the library does. -/
def pyCommand (c : LibCall) : W (Option Value) := do
  let _ ← lib c
  buildValue .none

def pyCommReset : W (Option Value) := pyCommand .ficCommReset
def pyFicHlsReset : W (Option Value) := pyCommand .ficHlsReset
def pyFicHlsStart : W (Option Value) := pyCommand .ficHlsStart
def pyFicProgInit : W (Option Value) := pyCommand (.ficProgInit .normal)

def pyFicProgStatus : W (Option Value) := do
  let st ← lib .progStat
  buildValue (.status st)

/-- A refused start returns without `PyBuffer_Release`. -/
def pyFicProgAsync (smap : ProgSmapMode) : W (Option Value) :=
  parsedBuffer .bufInt fun a => do
  let r ← lib (.ficProgAsync smap a.1.buf a.1.len a.2)
  if r < 0 then ret none else released false .none

def pyFicProgSm16Async : W (Option Value) := pyFicProgAsync .smap16
def pyFicProgSm8Async : W (Option Value) := pyFicProgAsync .smap8

/-- `ret < (uint32_t)data.len` for x16 and `ret < data.len` for x8, with `ret` a `uint32_t`. -/
def fallsShort (f : ProgFn) (r len : Nat) : Bool :=
  match f, m with
  | .sm8, .lp64 | .sm8Fast, .lp64 => decide (r % 2 ^ 32 < len)
  | _, _ => decide (r % 2 ^ 32 < len % 2 ^ 32)

def pyFicProg (f : ProgFn) : W (Option Value) :=
  parsedBuffer .bufInt fun a => do
  let r ← lib (.ficProg f a.1.buf a.1.len a.2)
  released (fallsShort m f r a.1.len) (.int (r % 2 ^ 32 : Nat))

def pyFicProgSm16Fast : W (Option Value) := pyFicProg m .sm16Fast
def pyFicProgSm16 : W (Option Value) := pyFicProg m .sm16
def pyFicProgSm8Fast : W (Option Value) := pyFicProg m .sm8Fast
def pyFicProgSm8 : W (Option Value) := pyFicProg m .sm8

def pyFicWrite : W (Option Value) :=
  parsed .shortByte fun a => do
  let r ← lib (.ficWrite a.1 (wordArg stack a.2))
  if r < 0 then ret none else buildValue .none

def pyFicRead : W (Option Value) :=
  parsed .short fun addr => do
  let r ← lib (.ficRead addr)
  if r < 0 then ret none else buildValue (.int r)

def pyFicHlsSend : W (Option Value) :=
  parsedBuffer .buf fun data => do
  let r ← lib (.ficHlsSend data.buf data.len)
  released (decide (r < 0)) .none

/-- `PyByteArray_FromStringAndSize` copies; the block is not freed. -/
def byteArray (size : Nat) (r : Int × Mem) : W (Option Value) :=
  if r.1 < 0 then ret none else do
  let ok ← api (.byteArray size r.2)
  ret (if ok then some (.bytes size r.2) else none)

def pyFicHlsReceive : W (Option Value) :=
  parsed .uint fun size => allocated (sizeArg m stack size) fun buf => do
  let r ← lib (.ficHlsReceive buf (sizeArg m stack size))
  byteArray (sizeArg m stack size) r

def pyFicDdrRead : W (Option Value) :=
  parsed .uintUint fun a => allocated (sizeArg m stack a.1) fun buf => do
  let r ← lib (.ficHlsDdrRead buf (sizeArg m stack a.1) a.2)
  byteArray (sizeArg m stack a.1) r

def pyFicDdrWrite : W (Option Value) :=
  parsedBuffer .bufUint fun a => do
  let r ← lib (.ficHlsDdrWrite a.1.buf a.1.len a.2)
  released (decide (r < 0)) .none

inductive Method
  | gpioOpen | gpioClose | getDone | getPower | commReset | progSm16 | progSm8 | progSm16Fast | progSm8Fast
  | progSm16Async | progSm8Async | progStatus | progInit
  | read | write | hlsReset | hlsStart | hlsSend | hlsReceive
  | ddrWrite | ddrRead
deriving DecidableEq, Repr

/-- `pyficlib2_methods` -/
def Method.entry : Method → W (Option Value)
  | gpioOpen => pyFicGpioOpen
  | gpioClose => pyFicGpioClose
  | getDone => pyFicDone
  | getPower => pyFicPower
  | commReset => pyCommReset
  | progSm16 => pyFicProgSm16 m
  | progSm8 => pyFicProgSm8 m
  | progSm16Fast => pyFicProgSm16Fast m
  | progSm8Fast => pyFicProgSm8Fast m
  | progSm16Async => pyFicProgSm16Async
  | progSm8Async => pyFicProgSm8Async
  | progStatus => pyFicProgStatus
  | progInit => pyFicProgInit
  | read => pyFicRead
  | write => pyFicWrite stack
  | hlsReset => pyFicHlsReset
  | hlsStart => pyFicHlsStart
  | hlsSend => pyFicHlsSend
  | hlsReceive => pyFicHlsReceive m stack
  | ddrWrite => pyFicDdrWrite
  | ddrRead => pyFicDdrRead m stack

/-- What the interpreter makes of a call: NULL without an exception is a SystemError. -/
inductive Outcome
  | value (v : Value)
  | raised (e : Raised)
  | systemError

def Outcome.of : Option Value → Option Raised → Outcome
  | some v, none => value v
  | none, some e => raised e
  | _, _ => systemError

def invoke (p : W (Option Value)) : W Outcome := do
  let r ← p
  let e ← api .errOccurred
  ret (.of r e)

/-! ## The ledger -/

/-- Whether `data` holds a buffer, the number of buffers not released, how often `data` was released
without one, the number of blocks allocated, and the exception set. -/
structure Ledger where
  data : Bool
  exports : Nat
  wild : Nat
  blocks : Nat
  raised : Option Raised

namespace Ledger

def withBuffer (s : Ledger) (f : Format) : Ledger :=
  if f.hasBuffer then { s with data := true, exports := s.exports + 1 } else s

def release (s : Ledger) : Ledger := if s.data then { s with data := false, exports := s.exports - 1 }
    else { s with wild := s.wild + 1 }

def made (s : Ledger) (ok : Bool) : Ledger := if ok then s else { s with raised := some .memory }

/-- What a call does to the ledger when it answers `a`. -/
def act : (c : Call) → Ledger → c.Answer → Ledger → Prop
  | .parse f, s, some _, t => t = s.withBuffer f
  | .parse _, s, none, t => t = { s with data := false, raised := some .parse }
  | .release, s, _, t => t = s.release
  | .malloc _, s, some _, t => t = { s with blocks := s.blocks + 1 }
  | .malloc _, s, none, t => t = s
  | .byteArray _ _, s, ok, t => t = s.made ok
  | .buildValue _, s, ok, t => t = s.made ok
  | .errOccurred, s, e, t => e = s.raised ∧ t = { s with raised := none }
  | .lib _, s, _, t => t = s

end Ledger

namespace Method

/-- It starts programming in the background. -/
def starts : Method → Bool
  | progSm16Async | progSm8Async => true
  | _ => false

/-- It takes a buffer. -/
def takesBuffer : Method → Bool
  | progSm16 | progSm8 | progSm16Fast | progSm8Fast | progSm16Async | progSm8Async => true
  | hlsSend | ddrWrite => true
  | _ => false

/-- It fills a block. -/
def receives : Method → Bool
  | hlsReceive | ddrRead => true
  | _ => false

/-- The library's answer is tested. -/
def tested : Method → Bool
  | getDone | getPower | commReset | progStatus | progInit | hlsReset | hlsStart => false
  | _ => true

end Method

namespace Outcome

def isValue : Outcome → Bool
  | value _ => true
  | _ => false

def isRefused : Outcome → Bool
  | systemError => true
  | _ => false

def isUnparsed : Outcome → Bool
  | raised .parse => true
  | _ => false

end Outcome

/-- What a call has made of the ledger. -/
structure Method.Does (c : Method) (s : Ledger) (r : Outcome) (t : Ledger) : Prop where
  exports : t.exports = s.exports + (c.starts && r.isRefused).toNat
  wild : t.wild = s.wild + (c.takesBuffer && r.isUnparsed).toNat
  blocks : s.blocks + (c.receives && r.isValue).toNat ≤ t.blocks
  noMore : t.blocks ≤ s.blocks + (c.receives && !r.isUnparsed).toNat
  refused : r.isRefused = true → c.tested = true

section
variable {α : Type} {Q : α → Ledger → Prop} {s : Ledger}

end

section
variable {c : Method} {s t : Ledger} {o : Outcome}

/-- Nothing is left behind. -/
theorem Method.Does.same (hx : t.exports = s.exports) (hw : t.wild = s.wild) (hb : t.blocks = s.blocks)
    (hstart : (c.starts && o.isRefused) = false) (hparse : (c.takesBuffer && o.isUnparsed) = false)
    (hvalue : (c.receives && o.isValue) = false) (href : o.isRefused = true → c.tested = true) :
    c.Does s o t := by
  refine ⟨?_, ?_, ?_, ?_, href⟩
  · rw [hstart]
    exact hx
  · rw [hparse]
    exact hw
  · rw [hvalue]
    exact Nat.le_of_eq hb.symm
  · exact (Nat.le_of_eq hb).trans (Nat.le_add_right ..)

/-- The arguments are refused, and `data` released without a buffer. -/
theorem Method.Does.unparsed (htakes : c.takesBuffer = true) (hrec : c.receives = false) :
    c.Does s (.raised .parse) { s with wild := s.wild + 1 } := by
  constructor
  · simp [Outcome.isRefused]
  · simp [htakes, Outcome.isUnparsed]
  · simp [hrec]
  · simp [hrec]
  · simp [Outcome.isRefused]

/-- What is proved of a method. -/
abbrev Leaves (c : Method) (s : Ledger) : Option Value → Ledger → Prop :=
  fun r t => c.Does s (.of r t.raised) t

end

/-! ## Sessions -/

/-- How many calls are of the kind `p`. -/
def times (p : Method → Outcome → Bool) (cs : List (Method × BitVec 32)) (rs : List Outcome) : Nat :=
  (cs.zip rs).countP fun x => p x.1.1 x.2

/-- What a session leaves behind. -/
structure Kept (cs : List (Method × BitVec 32)) (rs : List Outcome) (s t : Ledger) : Prop where
  answered : rs.length = cs.length
  exports : t.exports = s.exports + times (fun c r => c.starts && r.isRefused) cs rs
  wild : t.wild = s.wild + times (fun c r => c.takesBuffer && r.isUnparsed) cs rs
  blocks : s.blocks + times (fun c r => c.receives && r.isValue) cs rs ≤ t.blocks
  noMore : t.blocks ≤ s.blocks + times (fun c r => c.receives && !r.isUnparsed) cs rs
  refused (c : Method × BitVec 32) (r : Outcome) : (c, r) ∈ cs.zip rs →
    r.isRefused = true → c.1.tested = true

/-- Everything succeeds, but starts in the background. -/
def LibCall.given : (c : LibCall) → c.Answer
  | ficHlsReceive buf _ => (0, buf)
  | ficHlsDdrRead buf _ _ => (0, buf)
  | ficProg _ _ size _ => size
  | progStat => World.start.stat
  | ficGpioOpen => (3 : Int)
  | ficProgAsync _ _ _ _ => (-1 : Int)
  | ficGpioClose _ | ficDone | ficPower | ficCommReset | ficProgInit _ | ficWrite _ _ | ficRead
      _ | ficHlsReset | ficHlsStart
  | ficHlsSend _ _ | ficHlsDdrWrite _ _ _ => (0 : Int)

/-- Arguments are given, but for a buffer with an address. -/
def Format.given : (f : Format) → Option f.Args
  | int => some 3
  | bufInt => some (⟨fun _ => 0#8, 4⟩, 0)
  | shortByte => some (0#16, 0#8)
  | short => some 0#16
  | buf => some ⟨fun _ => 0#8, 4⟩
  | uint => some 4#32
  | uintUint => some (4#32, 0#32)
  | bufUint => none

/-- The ledger follows. -/
def Call.given : (c : Call) → Ledger → c.Answer × Ledger
  | parse f, s =>
    match f.given with
    | some a => (some a, s.withBuffer f)
    | none => (none, { s with data := false, raised := some .parse })
  | release, s => ((), s.release)
  | malloc _, s => (some fun _ => 0#8, { s with blocks := s.blocks + 1 })
  | byteArray _ _, s => (true, s)
  | buildValue _, s => (true, s)
  | errOccurred, s => (s.raised, { s with raised := none })
  | lib c, s => (c.given, s)

end Libfic2.Py
