import Libfic2.Driver.Bits
import Libfic2.Driver.Wp

/-!
# The GPIO block and the operations of the library on it

`Gpio` holds the function-select registers (`gpio+0 ..`, ten pins of three bits
each) and the output latch that GPSET0 and GPCLR0 change.  A pin is an output
when its field is 1 (`isOut`), and then it is driven to its latch bit.

`Op` lists what the library does to the outside: the macros of `ficlib2.h`,
`time`, `clock`, and updates of the global `PROG_STAT`.  `P α` is a library
function returning `α`.  What GET_GPIO may read, what the other side sees of a
change of the pins and what it does on its own is a `Device`; `sys dev` is the
library connected to it.
-/

namespace Libfic2

open Driver Prog

/-! ## Pins -/

/-- The boards; `FICMK2` selects `mk2`. -/
inductive Board | mk1 | mk2
deriving DecidableEq, Repr

@[simp] def rpInit : Nat := 4
@[simp] def rpProgB : Nat := 5
@[simp] def rpDone : Nat := 6
@[simp] def rpCclk : Nat := 7
/-- RP_CD0 .. RP_CD17. -/
@[simp] def rpCd (k : Nat) : Nat := 8 + k
@[simp] def rpCsiB : Nat := 26
@[simp] def rpRdwrB : Nat := 27
@[simp] def gpioPinMax : Nat := rpRdwrB
@[simp] def rpPwok : Nat := rpCd 16
@[simp] def rpGCksel : Nat := rpCd 17
@[simp] def rpCfsel : Nat := rpCd 17

/-- `1 << RP_x`. -/
abbrev rpPin (p : Nat) : BitVec 32 := bit p

namespace Board

@[simp] def rpRreq : Board → Nat | mk1 => rpCd 15 | mk2 => rpDone
@[simp] def rpRstb : Board → Nat | mk1 => rpCd 14 | mk2 => rpInit
@[simp] def rpFreq : Board → Nat | mk1 => rpCd 13 | mk2 => rpCsiB
@[simp] def rpFack : Board → Nat | mk1 => rpCd 12 | mk2 => rpRdwrB
/-- RP_DATA0, the lowest pin of the data bus. -/
@[simp] def rpDataLow : Board → Nat | mk1 => rpCd 8 | mk2 => rpCd 0
/-- Width of the data bus, RP_DATA_TOP - RP_DATA_LOW + 1. -/
@[simp] def width : Board → Nat | mk1 => 4 | mk2 => 16
@[simp] def rpDataTop (b : Board) : Nat := b.rpDataLow + b.width - 1

/-- RP_PIN_DATAk.  On mk1 these count from CD4, unlike RP_DATAk, which count from CD8. -/
def rpPinData : Board → Nat → BitVec 32
  | mk1, k => rpPin (rpCd (4 + k))
  | mk2, k => rpPin (rpCd k)

/-- RP_PIN_DATAlo | .. | RP_PIN_DATA(lo+n-1). -/
def rpPinDatas (b : Board) (lo : Nat) : Nat → BitVec 32
  | 0 => 0#32
  | n + 1 => b.rpPinDatas lo n ||| b.rpPinData (lo + n)

def commDatabusMask (b : Board) : BitVec 32 :=
  rpPin b.rpRstb ||| match b with
    | mk1 => b.rpPinDatas 0 8
    | mk2 => b.rpPinDatas 0 16

end Board

/-! ## Registers -/

/-- Function-select registers and output latch. -/
structure Gpio where
  fsel : Nat → BitVec 32
  latch : BitVec 32

namespace Gpio

/-- SET_INPUT(p). -/
def setInput (g : Gpio) (p : Nat) : Gpio :=
  { g with fsel := Function.update g.fsel (p / 10) (g.fsel (p / 10) &&& ~~~(7#32 <<< (p % 10 * 3))) }

/-- SET_OUTPUT(p). -/
def setOutput (g : Gpio) (p : Nat) : Gpio :=
  { g with fsel := Function.update g.fsel (p / 10) (g.fsel (p / 10) ||| (1#32 <<< (p % 10 * 3))) }

/-- `*(gpio+r) = 0x00`. -/
def clearSel (g : Gpio) (r : Nat) : Gpio := { g with fsel := Function.update g.fsel r 0#32 }

/-- SET_GPIO = v. -/
def set (g : Gpio) (v : BitVec 32) : Gpio := { g with latch := g.latch ||| v }

/-- CLR_GPIO = v. -/
def clr (g : Gpio) (v : BitVec 32) : Gpio := { g with latch := g.latch &&& ~~~v }

/-- Function code of pin `p`. -/
def fn (g : Gpio) (p : Nat) : BitVec 3 := field (g.fsel (p / 10)) (p % 10)

def isOut (g : Gpio) (p : Nat) : Bool := g.fn p == 1#3

/-- Output latch bit of pin `p`. -/
def lat (g : Gpio) (p : Nat) : Bool := g.latch.getLsbD p

/-- The library drives `p` high. -/
def high (g : Gpio) (p : Nat) : Bool := g.isOut p && g.lat p

/-- The library drives `p` low. -/
def low (g : Gpio) (p : Nat) : Bool := g.isOut p && !g.lat p

/-- All pins inputs: the function-select registers 0 to 2 are zero. -/
def AllInput (g : Gpio) : Prop := ∀ r, r < 3 → g.fsel r = 0#32

/-- The word on pins `lo .. lo+n-1`: driven pins carry their latch bit, the others `float`. -/
def bus (g : Gpio) (float : BitVec 32) (lo n : Nat) : BitVec n :=
  ofBits (fun i => if g.isOut (lo + i) then g.lat (lo + i) else float.getLsbD (lo + i)) n

section
variable (g : Gpio) (p q r : Nat) (v : BitVec 32)

@[simp] theorem fn_setInput : (g.setInput p).fn q = if q = p then 0#3 else g.fn q := by
  unfold fn setInput
  dsimp only
  by_cases h : q / 10 = p / 10
  · rw [h, Function.update_self, field_clear]
    by_cases hq : q = p
    · subst hq; simp
    · rw [if_neg (by omega), if_neg hq]
  · rw [Function.update_of_ne h, if_neg (by omega)]

@[simp] theorem fn_setOutput : (g.setOutput p).fn q = if q = p then g.fn q ||| 1#3 else g.fn q := by
  unfold fn setOutput
  dsimp only
  by_cases h : q / 10 = p / 10
  · rw [h, Function.update_self, field_setLow _ _ _ (by omega)]
    by_cases hq : q = p
    · subst hq; simp
    · rw [if_neg (by omega), if_neg hq]
  · rw [Function.update_of_ne h, if_neg (by omega)]

@[simp] theorem fn_clearSel : (g.clearSel r).fn q = if q / 10 = r then 0#3 else g.fn q := by
  unfold fn clearSel
  dsimp only
  by_cases h : q / 10 = r
  · rw [h, Function.update_self, field_zero, if_pos rfl]
  · rw [Function.update_of_ne h, if_neg h]

@[simp] theorem fn_set : (g.set v).fn q = g.fn q := rfl
@[simp] theorem fn_clr : (g.clr v).fn q = g.fn q := rfl

@[simp] theorem lat_setInput : (g.setInput p).lat q = g.lat q := rfl
@[simp] theorem lat_setOutput : (g.setOutput p).lat q = g.lat q := rfl
@[simp] theorem lat_clearSel : (g.clearSel r).lat q = g.lat q := rfl

@[simp] theorem lat_set : (g.set v).lat q = (g.lat q || v.getLsbD q) := by
  simp [lat, set]

@[simp] theorem lat_clr : (g.clr v).lat q = (g.lat q && !v.getLsbD q) := by
  unfold lat clr
  dsimp only
  rw [BitVec.getLsbD_and, BitVec.getLsbD_not]
  by_cases h : q < 32
  · simp [h]
  · simp [BitVec.getLsbD_of_ge g.latch q (by omega)]

@[simp] theorem isOut_set : (g.set v).isOut q = g.isOut q := rfl
@[simp] theorem isOut_clr : (g.clr v).isOut q = g.isOut q := rfl

end

theorem isOut_setInput {g : Gpio} {p q : Nat} (h : g.isOut q = true) (hne : q ≠ p) :
    (g.setInput p).isOut q = true := by
  unfold isOut at *
  rwa [fn_setInput, if_neg hne]

theorem isOut_setOutput {g : Gpio} {q : Nat} (h : g.isOut q = true) (p : Nat) :
    (g.setOutput p).isOut q = true := by
  unfold isOut at *
  rw [fn_setOutput, beq_iff_eq.1 h]
  split <;> rfl

/-- SET_INPUT and SET_OUTPUT make an output. -/
theorem isOut_setInputOutput (g : Gpio) (p : Nat) : ((g.setInput p).setOutput p).isOut p = true := by
  unfold isOut
  rw [fn_setOutput, if_pos rfl, fn_setInput, if_pos rfl]
  rfl

/-- With all pins inputs every function code is 0. -/
theorem AllInput.fn {g : Gpio} (h : g.AllInput) {p : Nat} (hp : p < 30) : g.fn p = 0#3 := by
  unfold Gpio.fn
  rw [h (p / 10) (by omega), field_zero]

end Gpio

/-! ## PROG_STAT -/

/-- enum PROG_MODE. -/
inductive ProgMode | normal | pr
deriving DecidableEq, Repr

/-- enum PROG_SMAP_MODE. -/
inductive ProgSmapMode | smap8 | smap16
deriving DecidableEq, Repr

/-- enum PROG_STATUS. -/
inductive ProgStatus | init | prog | done | fail
deriving DecidableEq, Repr

/-- The fields of `struct _prog_stat` that the programming functions write. -/
structure ProgStat where
  stat : ProgStatus
  smapMode : ProgSmapMode
  progMode : ProgMode
  progStTime : Int
  progEdTime : Int
  progSize : Nat
  txSize : Nat

/-! ## Operations -/

inductive Op
  | setInput (p : Nat)
  | setOutput (p : Nat)
  | clearSel (r : Nat)
  | set (v : BitVec 32)
  | clr (v : BitVec 32)
  | get
  | time
  | clock
  | stat (f : ProgStat → ProgStat)

@[reducible] def Ans : Op → Type
  | .get => BitVec 32
  | .time => Int
  | .clock => Int
  | _ => Unit

/-- A library function. -/
abbrev P (α : Type) := Prog Op Ans α

/-- Issue one operation. -/
abbrev issue (o : Op) : P (Ans o) := call o

/-- The pins after an operation. -/
def Op.pins : Op → Gpio → Gpio
  | .setInput p, g => g.setInput p
  | .setOutput p, g => g.setOutput p
  | .clearSel r, g => g.clearSel r
  | .set v, g => g.set v
  | .clr v, g => g.clr v
  | _, g => g

/-- SET_ALL_INPUT. -/
def setAllInput : P Unit := do
  issue (.clearSel 0)
  issue (.clearSel 1)
  issue (.clearSel 2)

theorem ops_setAllInput {A : Op → Prop} (h : ∀ r, A (.clearSel r)) : Ops A setAllInput :=
  ops_bind (ops_call _ (h 0)) fun _ => ops_bind (ops_call _ (h 1)) fun _ => ops_call _ (h 2)

/-- GET_GPIO_PIN(p), from the value of GET_GPIO. -/
def getPin (v : BitVec 32) (p : Nat) : BitVec 32 := (v &&& rpPin p) >>> p

theorem getPin_eq (v : BitVec 32) {p : Nat} (hp : p < 32) :
    getPin v p = if v.getLsbD p then 1#32 else 0#32 := by
  apply BitVec.eq_of_getLsbD_eq
  intro i _
  unfold getPin
  rw [BitVec.getLsbD_ushiftRight, BitVec.getLsbD_and, getLsbD_bit]
  by_cases h0 : i = 0
  · subst h0
    rw [Nat.add_zero]
    cases v.getLsbD p <;> simp [hp]
  · rw [decide_eq_false (show ¬ p + i = p by omega), Bool.and_false, Bool.and_false]
    split <;> simp [h0]

/-- `GET_GPIO_PIN(p) == 0`. -/
theorem getPin_beq_zero (v : BitVec 32) {p : Nat} (hp : p < 32) :
    (getPin v p == 0#32) = !v.getLsbD p := by
  rw [getPin_eq v hp]
  cases v.getLsbD p <;> rfl

/-- `GET_GPIO_PIN(p) == 1`. -/
theorem getPin_beq_one (v : BitVec 32) {p : Nat} (hp : p < 32) :
    (getPin v p == 1#32) = v.getLsbD p := by
  rw [getPin_eq v hp]
  cases v.getLsbD p <;> rfl

/-- `a | b` on `int`. -/
def intOr (a b : Int) : Int := (BitVec.ofInt 32 a ||| BitVec.ofInt 32 b).toInt

/-! ## The other side -/

/-- What stands behind the pins: what GET_GPIO may read, what is noticed of a change of the
pins, and what happens by itself. -/
structure Device (D : Type) where
  level : Gpio → D → BitVec 32 → Prop
  seen : Gpio → Gpio → D → D
  env : Gpio → D → D → Prop

structure World (D : Type) where
  gpio : Gpio
  stat : ProgStat
  dev : D

variable {D : Type} (dev : Device D)

/-- The pins change to `g`. -/
def World.touch (s : World D) (g : Gpio) : World D :=
  { s with gpio := g, dev := dev.seen s.gpio g s.dev }

/-- The library connected to `dev`.  `time` and `clock` may answer anything. -/
def sys : Sys Op Ans (World D) where
  act
    | .get, s, v, s' => dev.level s.gpio s.dev v ∧ s' = s
    | .time, s, _, s' => s' = s
    | .clock, s, _, s' => s' = s
    | .stat f, s, _, s' => s' = { s with stat := f s.stat }
    | o, s, _, s' => s' = s.touch dev (o.pins s.gpio)
  env s s' := ∃ d, dev.env s.gpio s.dev d ∧ s' = { s with dev := d }

variable {dev}

/-- What any operation does to the pins. -/
theorem act_gpio {o : Op} {s s' : World D} {a : Ans o} (h : (sys dev).act o s a s') :
    s'.gpio = o.pins s.gpio := by
  cases o <;> (obtain ⟨-, rfl⟩ := h; rfl)

/-- A step of the other side leaves the pins. -/
theorem env_gpio {s s' : World D} (h : (sys dev).env s s') : s'.gpio = s.gpio := by
  obtain ⟨d, -, rfl⟩ := h
  rfl

theorem drift_gpio {s s' : World D} (h : (sys dev).Drift s s') : s'.gpio = s.gpio := by
  induction h with
  | refl => rfl
  | tail _ hb ih => rw [env_gpio hb, ih]

/-- For statements about the end of a call only: nothing is asked of the moments before. -/
abbrev anyTime {D : Type} : World D → Prop := fun _ => True

/-! ## Predicates of the pins alone -/

/-- A predicate of the pins survives a step that no operation in `Pr` can undo. -/
theorem keepsOps_gpio {Pr : Op → Prop} {X : Gpio → Prop} (h : ∀ o g, Pr o → X g → X (o.pins g)) :
    KeepsOps (sys dev) Pr fun s => X s.gpio where
  act o s a s' ho ha hs := by rw [act_gpio ha]; exact h o s.gpio ho hs
  env s s' he hs := by rw [env_gpio he]; exact hs

/-- One operation, as far as the pins are concerned. -/
theorem wp_issue_gpio {J Q : Gpio → Prop} (o : Op) (s : World D) (h : J s.gpio)
    (h' : J (o.pins s.gpio)) (hQ : Q (o.pins s.gpio)) :
    wp (sys dev) (fun t => J t.gpio) (fun _ t => Q t.gpio) (issue o) s := by
  intro t ht
  refine ⟨?_, fun a u hu v hv => ?_⟩
  · show J t.gpio
    rw [drift_gpio ht]; exact h
  · show J v.gpio ∧ Q v.gpio
    rw [drift_gpio hv, act_gpio hu, drift_gpio ht]
    exact ⟨h', hQ⟩

/-- SET_ALL_INPUT, for an invariant that clearing function selects keeps. -/
theorem wp_setAllInput_gpio {J : Gpio → Prop} (hJ : ∀ g r, J g → J (g.clearSel r)) (s : World D)
    (h : J s.gpio) :
    wp (sys dev) (fun t => J t.gpio)
      (fun _ t => t.gpio = ((s.gpio.clearSel 0).clearSel 1).clearSel 2) setAllInput s := by
  refine wp_bind (wp_mono (wp_issue_gpio (Q := fun g => g = s.gpio.clearSel 0) _ s h (hJ _ _ h) rfl) ?_)
  intro _ t h1 e1
  refine wp_bind (wp_mono (wp_issue_gpio (Q := fun g => g = t.gpio.clearSel 1) _ t h1 (hJ _ _ h1) rfl) ?_)
  intro _ u h2 e2
  refine wp_issue_gpio (Q := fun g => g = _) _ u h2 (hJ _ _ h2) ?_
  rw [e2, e1]
  rfl

/-- After SET_ALL_INPUT every pin is an input. -/
theorem Gpio.fn_allInput (g : Gpio) {p : Nat} (hp : p < 30) :
    (((g.clearSel 0).clearSel 1).clearSel 2).fn p = 0#3 := by
  have : p / 10 = 0 ∨ p / 10 = 1 ∨ p / 10 = 2 := by omega
  rcases this with h | h | h <;> simp [h]

/-! ## Read-back -/

/-- Driven pins read back as driven, the others may read anything. -/
def ReadsBack (g : Gpio) (v : BitVec 32) : Prop := ∀ p, p < 32 → g.isOut p = true → v.getLsbD p = g.lat p

/-- A device that notices nothing; GET_GPIO reads driven pins back as driven. -/
def passive : Device Unit where
  level g _ v := ReadsBack g v
  seen _ _ _ := ()
  env _ _ _ := False

/-- A schedule of `passive`: GET_GPIO reads the output latch, clocks stand still. -/
def passiveAnswer : (o : Op) → World Unit → Ans o × World Unit
  | .get, s => (s.gpio.latch, s)
  | .time, s => (0, s)
  | .clock, s => (0, s)
  | .stat f, s => ((), { s with stat := f s.stat })
  | .setInput p, s => ((), s.touch passive (s.gpio.setInput p))
  | .setOutput p, s => ((), s.touch passive (s.gpio.setOutput p))
  | .clearSel r, s => ((), s.touch passive (s.gpio.clearSel r))
  | .set v, s => ((), s.touch passive (s.gpio.set v))
  | .clr v, s => ((), s.touch passive (s.gpio.clr v))

theorem passiveAnswer_act (o : Op) (s : World Unit) :
    (sys passive).act o s (passiveAnswer o s).1 (passiveAnswer o s).2 := by
  cases o with
  | get => exact ⟨fun _ _ _ => rfl, rfl⟩
  | _ => rfl

/-- All pins inputs, all latch bits 0. -/
def World.start : World Unit where
  gpio := ⟨fun _ => 0#32, 0#32⟩
  stat := ⟨.init, .smap8, .normal, 0, 0, 0, 0⟩
  dev := ()

end Libfic2
