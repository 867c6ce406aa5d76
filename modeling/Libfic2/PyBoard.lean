import Libfic2.Driver.Handler
import Libfic2.LockLeaks
import Libfic2.PyWrapper
import Libfic2.RasIo

/-!
# The wrapper on a board

A method called with given arguments, its calls of the library carried out by the functions of the
library over the system calls and the operations on the GPIO.  What is left are the allocations, the
start in the background, PROG_STAT and programming modes that PROG_MODE does not have.

* `py_store`: for a Python program the IO module is the two stores of `io_store`
-/

namespace Libfic2.Py

open Driver Prog Sys
open Ficfuse (ddrBase)

/-! ## The calls, carried out -/

inductive HostOp
  | malloc (size : Nat)
  | object
  | sys (c : GpioLock.GpioCall)
  | dev (o : Op)
  | lib (c : LibCall)
  | readFile

@[reducible] def HostOp.Answer : HostOp → Type
  | malloc _ => Option Mem
  | object => Bool
  | sys _ => Int
  | dev o => Ans o
  | lib c => c.Answer
  | readFile => Option Buffer

abbrev H (α : Type) := Prog HostOp HostOp.Answer α

def onBoard {α : Type} (p : P α) : H α := p.lift HostOp.dev
def onHost {α : Type} (p : GpioLock.G α) : H α := p.lift HostOp.sys

/-- `gpio` of the library, and the exception set. -/
structure Interp where
  gpio : Int
  raised : Option Raised

/-- An object is made, or MemoryError is set. -/
def Interp.made (x : Interp) : H (Bool × Interp) := do
  let ok ← call .object
  ret (ok, if ok then x else { x with raised := some .memory })

/-- The enumerators of PROG_MODE. -/
def progModeOf (pm : Int) : Option ProgMode :=
  if pm = 0 then some .normal else if pm = 1 then some .pr else none

/-- What the interpreter makes of the arguments, for a format. -/
abbrev Given := (f : Format) → Option f.Args

variable (m : DataModel) (b : Board) (fuel : Nat)

/-- With `gpio` as before. -/
def kept {α : Type} (gpio : Int) (p : P α) : H (α × Int) := onBoard p >>= fun a => ret (a, gpio)

def LibCall.below (gpio : Int) : (c : LibCall) → H (c.Answer × Int)
  | ficGpioOpen => onHost (GpioLock.ficGpioOpen fuel gpio)
  | ficGpioClose fdLock => onHost (GpioLock.ficGpioClose gpio fdLock) >>= fun r => ret (r, gpio)
  | ficDone => kept gpio Libfic2.ficDone
  | ficPower => kept gpio Libfic2.ficPower
  | ficCommReset => kept gpio (Libfic2.ficCommReset b fuel)
  | ficProg f data size pm =>
    match progModeOf pm with
    | some pm => kept gpio (f.prog b fuel data size pm)
    | none => call (.lib (ficProg f data size pm)) >>= fun r => ret (r, gpio)
  | ficProgInit pm => kept gpio (Libfic2.ficProgInit b fuel pm)
  | ficWrite addr data => kept gpio (Libfic2.ficWrite b fuel addr data)
  | ficRead addr => kept gpio (Libfic2.ficRead b fuel addr)
  | ficHlsReset => kept gpio (Libfic2.ficHlsReset b fuel)
  | ficHlsStart => kept gpio (Libfic2.ficHlsStart b fuel)
  | ficHlsSend data size => kept gpio (Libfic2.ficHlsSend b fuel data size)
  | ficHlsReceive buf size => kept gpio (Libfic2.ficHlsReceive b fuel buf size)
  | ficHlsDdrRead buf size addr => kept gpio (Libfic2.ficHlsDdrRead b fuel buf size addr)
  | ficHlsDdrWrite data size addr => kept gpio (Libfic2.ficHlsDdrWrite b fuel data size addr)
  | progStat => call (.lib progStat) >>= fun r => ret (r, gpio)
  | ficProgAsync smap data size pm =>
      call (.lib (ficProgAsync smap data size pm)) >>= fun r => ret (r, gpio)

def Call.below (given : Given) : (c : Call) → Interp → H (c.Answer × Interp)
  | parse f, x =>
    match given f with
    | some a => ret (some a, x)
    | none => ret (none, { x with raised := some .parse })
  | release, x => ret ((), x)
  | malloc size, x => call (.malloc size) >>= fun r => ret (r, x)
  | byteArray _ _, x => x.made
  | buildValue _, x => x.made
  | errOccurred, x => ret (x.raised, { x with raised := none })
  | lib c, x => c.below b fuel x.gpio >>= fun r => ret (r.1, { x with gpio := r.2 })

/-- A call of a method. -/
structure Use where
  method : Method
  given : Given
  stack : BitVec 32

def Use.run (u : Use) (x : Interp) : H (Outcome × Interp) :=
  (invoke (u.method.entry m u.stack)).handle (Call.below b fuel u.given) x

/-! ## Step by step -/

section
variable {b fuel} {given : Given} {x : Interp}

theorem handle_invoke (p : W (Option Value)) : (invoke p).handle (Call.below b fuel given) x =
    p.handle (Call.below b fuel given) x >>=
    fun r => ret (.of r.1 r.2.raised, { r.2 with raised := none }) :=
  handle_bind ..

theorem handle_api {α : Type} (c : Call) (k : c.Answer → W α) :
    (api c >>= k).handle (Call.below b fuel given) x =
    c.below b fuel given x >>= fun r => (k r.1).handle (Call.below b fuel given) r.2 := rfl

theorem handle_lib {α : Type} (c : LibCall) (k : c.Answer → W α) :
    (lib c >>= k).handle (Call.below b fuel given) x =
      c.below b fuel x.gpio >>= fun r => (k r.1).handle (Call.below b fuel given) { x with gpio := r.2 } := by
  rw [handle_api]
  exact bind_assoc ..

variable {f : Format} {a : f.Args} {k : f.Args → W (Option Value)}

theorem handle_parsed (ha : given f = some a) :
    (parsed f k).handle (Call.below b fuel given) x = (k a).handle (Call.below b fuel given) x := by
  show (Call.below b fuel given (.parse f) x >>= _) = _
  simp only [Call.below, ha]
  rfl

theorem handle_parsedBuffer (ha : given f = some a) :
    (parsedBuffer f k).handle (Call.below b fuel given) x = (k a).handle (Call.below b fuel given) x := by
  show (Call.below b fuel given (.parse f) x >>= _) = _
  simp only [Call.below, ha]
  rfl

end

/-! ## The IO module for Python -/

/-- The latched IO module, and any answers from the interpreter and the system. -/
def hostSys (b : Board) : Sys HostOp HostOp.Answer (World (RasDdr b × RegFile b)) where
  act
    | .dev o, s, a, t => (ioSys b).act o s a t
    | _, s, _, t => t = s
  env := (ioSys b).env

namespace Use

/-- The call of the library, for the block that it fills. -/
def ioCall (u : Use) : Option (Mem → IoCall) :=
  match u.method with
  | .write => (u.given .shortByte).map fun a _ => .reg (.write a.1 (wordArg u.stack a.2))
  | .read => (u.given .short).map fun addr _ => .reg (.read addr)
  | .ddrWrite => (u.given .bufUint).map fun a _ => .ddr (.write a.1.buf a.1.len a.2)
  | .ddrRead => (u.given .uintUint).map fun a buf => .ddr (.read buf (sizeArg m u.stack a.1) a.2)
  | .commReset => some fun _ => .ddr .commReset
  | .hlsReset => some fun _ => .ddr .hlsReset
  | .hlsStart => some fun _ => .ddr .hlsStart
  | _ => none

/-- What is made of the answer. -/
def value (u : Use) (r : Int × Mem) : Value :=
  match u.method with
  | .read => .int r.1
  | .ddrRead => .bytes (((u.given .uintUint).map fun a => sizeArg m u.stack a.1).getD 0) r.2
  | _ => .none

/-- The methods of the IO module. -/
def Stores (u : Use) : Prop :=
  u.method ∈ [.write, .read, .ddrWrite, .ddrRead, .commReset, .hlsReset, .hlsStart]

/-- The sizes fit their headers. -/
def Fits (u : Use) : Prop := ∀ c ∈ u.ioCall m, ∀ buf, (c buf).Fits

/-- What a use makes of the registers and the DDR. -/
inductive Does {b : Board} (u : Use) : IoState b → Outcome → IoState b → Prop
  | unparsed (hno : u.ioCall m = none) (s : IoState b) : Does u s (.raised .parse) s
  | noMemory (hm : u.method = .ddrRead) (s : IoState b) : Does u s .systemError s
  | failed {c : Mem → IoCall} (buf : Mem) {r : Int × Mem} {s t : IoState b} (hc : c ∈ u.ioCall m)
      (h : (c buf).Does s r t) (ht : u.method.tested = true) (hr : r.1 < 0) : Does u s .systemError t
  | answered {c : Mem → IoCall} (buf : Mem) {r : Int × Mem} {s t : IoState b} (hc : c ∈ u.ioCall m)
      (h : (c buf).Does s r t)
      (hr : u.method.tested = true → ¬ r.1 < 0) (ok : Bool) :
      Does u s (if ok then .value (u.value m r) else .raised .memory) t

end Use

section
variable {m b fuel} {x : Interp} {s : World (RasDdr b × RegFile b)} {u : Use}

theorem wp_run {α : Type} {Q : α → World (RasDdr b × RegFile b) → Prop} {p : P α}
    (h : wp (ioSys b) anyTime Q p s) : wp (hostSys b) anyTime Q (onBoard p) s :=
  wp_lift (fun _ _ _ _ h => h) (fun _ _ h => h) h

variable {t : World (RasDdr b × RegFile b)} {y : Interp}

end

/-! ## Sessions -/

/-- With `gpio` as it is, which none of the seven methods changes. -/
def Use.call (gpio : Int) (u : Use) : H Outcome := u.run m b fuel ⟨gpio, none⟩ >>= fun r => ret r.1

/-- A write to the byte `a`. -/
def Use.Covers (a : Nat) (u : Use) : Prop := ∃ c ∈ u.ioCall m, ∃ buf, (c buf).Covers a

section
variable {m b fuel} {us : List Use} {os : List Outcome} {s s' : IoState b}

namespace Use.Does

variable {u : Use} {o : Outcome}

/-- Every use is a call of the library or does nothing. -/
theorem reached (h : u.Does m s o s') : s' = s ∨ ∃ c ∈ u.ioCall m, ∃ buf r, (c buf).Does s r s' := by
  cases h with
  | unparsed _ _ => exact .inl rfl
  | noMemory _ _ => exact .inl rfl
  | failed _ hc h _ _ => exact .inr ⟨_, hc, _, _, h⟩
  | answered _ hc h _ _ => exact .inr ⟨_, hc, _, _, h⟩

theorem value_inv {v : Value} (h : u.Does m s (.value v) s') :
    ∃ c ∈ u.ioCall m, ∃ buf r, (c buf).Does s r s' ∧
      (u.method.tested = true → ¬ r.1 < 0) ∧ v = u.value m r := by
  generalize ho : Outcome.value v = o at h
  cases h with
  | unparsed _ _ => cases ho
  | noMemory _ _ => cases ho
  | failed _ _ _ _ _ => cases ho
  | answered _ hc h hr ok =>
    cases ok with
    | true => exact ⟨_, hc, _, _, h, hr, Outcome.value.inj ho⟩
    | false => cases ho

end Use.Does

theorem Use.Does.wrote {u : Use} {a : BitVec 16} {d : BitVec 8} {v : Value} (hm : u.method = .write)
    (hu : u.given .shortByte = some (a, d))
    (h : u.Does m s (.value v) s') : s'.regs a = (wordArg u.stack d).setWidth b.regWidth := by
  obtain ⟨c, hc, buf, r, hdoes, hr, -⟩ := h.value_inv
  obtain ⟨method, given, stack⟩ := u
  obtain rfl : method = .write := hm
  have hcall : Use.ioCall m ⟨.write, given, stack⟩ = some fun _ => .reg (.write a (wordArg stack d)) :=
    congrArg (Option.map _) hu
  obtain rfl := Option.some.inj (hcall.symm.trans hc)
  rcases hdoes.1 with ⟨-, hregs⟩ | ⟨hno, -⟩
  · rw [hregs]
    exact if_pos rfl
  · exact absurd (hno ▸ (by decide : (-1 : Int) < 0)) (hr rfl)

end

/-! ## A session on mk1 -/

end Libfic2.Py
