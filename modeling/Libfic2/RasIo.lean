import Mathlib.Tactic.IntervalCases
import Libfic2.DdrStore
import Libfic2.LatchedRegs

/-!
# Registers and DDR on one bus

The IO module of the FPGA serves the register accesses of `fic_write` and `fic_read`, and behind
address 0x1000 the transfers of the HLS module.  `m.both n` are two machines on the bus, both of which
see every word; the first one has the data pins when both place a word.

* `wp_left`, `wp_right`: what is true of a call with one of the machines is true with both
* `io_store`: a session of register accesses and DDR transfers, of which any may fail
-/

namespace Libfic2

open Driver Prog Sys
open Ficfuse (ddrBase)

variable {b : Board} (fuel : Nat)

/-! ## Two machines -/

section
variable {M N D E : Type}

namespace WordMachine

def both (m : WordMachine b M) (n : WordMachine b N) : WordMachine b (M × N) where
  strobe x w := (m.strobe x.1 w, n.strobe x.2 w)
  release x := (m.release x.1, n.release x.2)
  out x := (m.out x.1).or (n.out x.2)
  release_release x := Prod.ext (m.release_release x.1) (n.release_release x.2)

/-- A machine that places no word. -/
def mute (m : WordMachine b M) : WordMachine b M where
  strobe := m.strobe
  release := m.release
  out _ := none
  release_release := m.release_release

end WordMachine

def World.map (f : D → E) (s : World D) : World E := ⟨s.gpio, s.stat, f s.dev⟩

variable {m : WordMachine b M} {n : WordMachine b N} {α : Type} {p : P α} {s : World (M × N)}

theorem Settled.left {g : Gpio} {x : M × N} (h : Settled (m.both n) g x) : Settled m g x.1 :=
  h.imp_right (congrArg Prod.fst)

theorem Settled.right {g : Gpio} {x : M × N} (h : Settled (m.both n) g x) : Settled n.mute g x.2 :=
  h.imp_right (congrArg Prod.snd)

end

/-! ## A register file -/

/-- The words of the transaction, the registers, and the word on the data pins. -/
structure RegFile (b : Board) where
  words : List (BitVec b.width)
  regs : BitVec 16 → BitVec b.regWidth
  out : Option (BitVec b.width)

namespace RegFile

def strobe (x : RegFile b) (w : BitVec b.width) : RegFile b :=
  match readWord x.regs x.words with
  | some u => { x with words := x.words ++ [u], out := some u }
  | none => ⟨x.words ++ [w], writeRegs x.regs (x.words ++ [w]), none⟩

def release (x : RegFile b) : RegFile b := { x with words := [], out := none }

end RegFile

variable (b) in
/-- The registers behind the bus. -/
def regFile : WordMachine b (RegFile b) where
  strobe := RegFile.strobe
  release := RegFile.release
  out x := x.out
  release_release _ := rfl

/-- A part of a machine that only a transaction with the command WRITE changes. -/
theorem after_other {M X : Type} {m : WordMachine b M} (words : M → List (BitVec b.width)) (part : M → X)
    (hstep : ∀ x w, ∃ u, words (m.strobe x w) = words x ++ [u] ∧ (words x = [] → u = w) ∧
      ((words x ++ [u]).head? ≠ some (cmdBits b .write) → part (m.strobe x w) = part x))
    {x : M} (hx : words x = []) {ws : List (BitVec b.width)}
    (hws : ws.head? ≠ some (cmdBits b .write)) : part (m.after x ws) = part x := by
  have key : (words (m.after x ws)).head? = ws.head? ∧ part (m.after x ws) = part x := by
    induction ws using List.reverseRecOn with
    | nil => exact ⟨congrArg List.head? hx, rfl⟩
    | append_singleton ws w ih =>
      obtain ⟨u, hwords, hfirst, hpart⟩ := hstep (m.after x ws) w
      have hhead : (words (m.after x ws) ++ [u]).head? = (ws ++ [w]).head? ∧
          part (m.after x ws) = part x := by
        cases ws with
        | nil => exact ⟨by rw [show words (m.after x []) = [] from hx, hfirst hx], rfl⟩
        | cons c ws =>
          obtain ⟨hc, hsame⟩ := ih hws
          exact ⟨by rw [List.head?_append, hc]; rfl, hsame⟩
      rw [WordMachine.after_append]
      refine ⟨(congrArg List.head? hwords).trans hhead.1, (hpart ?_).trans hhead.2⟩
      rwa [hhead.1]
  exact key.2

theorem takeHead_head {ws ds : List (BitVec b.width)} {c : BitVec b.width} {a : BitVec 16}
    (h : takeHead b ws = some (c, a, ds)) : ws.head? = some c := by
  rw [← words_takeHead h]
  rfl

theorem writeRegs_other {regs : BitVec 16 → BitVec b.regWidth} {ws : List (BitVec b.width)}
    (h : ws.head? ≠ some (cmdBits b .write)) : writeRegs regs ws = regs := by
  unfold writeRegs
  split
  · next c a ds hhead =>
    refine if_neg fun hc => h ?_
    rw [takeHead_head hhead, hc]
  · rfl

theorem regFile_other {x : RegFile b} (hx : x.words = []) {ws : List (BitVec b.width)}
    (hws : ws.head? ≠ some (cmdBits b .write)) : ((regFile b).after x ws).regs = x.regs := by
  refine after_other RegFile.words RegFile.regs (fun x w => ?_) hx hws
  show ∃ u, (x.strobe w).words = x.words ++ [u] ∧ (x.words = [] → u = w) ∧
    ((x.words ++ [u]).head? ≠ some (cmdBits b .write) → (x.strobe w).regs = x.regs)
  unfold RegFile.strobe
  split
  · next u hread =>
    refine ⟨u, rfl, fun hnil => ?_, fun _ => rfl⟩
    rw [hnil] at hread
    cases b <;> cases hread
  · exact ⟨w, rfl, fun _ => rfl, writeRegs_other⟩

theorem rasDdr_other {x : RasDdr b} (hx : x.words = []) {ws : List (BitVec b.width)}
    (hws : ws.head? ≠ some (cmdBits b .write)) : ((rasDdr b).after x ws).ddr = x.ddr := by
  refine after_other RasDdr.words RasDdr.ddr (fun x w => ?_) hx hws
  show ∃ u, (x.strobe w).words = x.words ++ [u] ∧ (x.words = [] → u = w) ∧
    ((x.words ++ [u]).head? ≠ some (cmdBits b .write) → (x.strobe w).ddr = x.ddr)
  unfold RasDdr.strobe
  split
  · next k hplaced =>
    refine ⟨_, rfl, fun hnil => ?_, fun _ => rfl⟩
    rw [hnil] at hplaced
    cases b <;> cases hplaced
  · refine ⟨w, RasDdr.accept_words x w, fun _ => rfl, fun hhead => ?_⟩
    unfold RasDdr.accept
    dsimp only
    split
    · next msg hdec =>
      refine RasDdr.serve_ddr fun hcmd => hhead ?_
      unfold decodeMessage at hdec
      obtain ⟨⟨c, a, ds⟩, h1, hdec⟩ := Option.bind_eq_some_iff.1 hdec
      obtain ⟨bs, -, hdec⟩ := Option.bind_eq_some_iff.1 hdec
      obtain ⟨⟨ctrl, bs1⟩, -, hdec⟩ := Option.bind_eq_some_iff.1 hdec
      obtain ⟨⟨addr, bs2⟩, -, hdec⟩ := Option.bind_eq_some_iff.1 hdec
      obtain ⟨⟨size, bs3⟩, -, hdec⟩ := Option.bind_eq_some_iff.1 hdec
      obtain rfl := Option.some.inj hdec
      rw [takeHead_head h1]
      exact congrArg some hcmd.1
    · rfl

/-! ## `fic_write` -/

/-- All registers but the one at the address of the HLS module. -/
def SameRegs (r r' : BitVec 16 → BitVec b.regWidth) : Prop := ∀ a, a ≠ commAddrHls → r' a = r a

theorem SameRegs.trans {r r' r'' : BitVec 16 → BitVec b.regWidth} (h : SameRegs r r')
    (h' : SameRegs r' r'') : SameRegs r r'' :=
  fun a ha => (h' a ha).trans (h a ha)

theorem Listened.regs {x y : RegFile b} (h : Listened (regFile b).mute x y) : y.regs = x.regs := by
  obtain ⟨sent, hhead, hy⟩ := h
  have hother : ((regFile b).after x.release sent).regs = x.release.regs :=
    regFile_other rfl fun hc => RasDdr.write_ne_read (hhead _ hc)
  rcases hy with rfl | rfl
  · exact hother
  · exact hother

theorem Listened.ddr {x y : RasDdr b} (h : Listened (rasDdr b) x y) : y.ddr = x.ddr := by
  obtain ⟨sent, hhead, hy⟩ := h
  have hother : ((rasDdr b).after x.release sent).ddr = x.release.ddr :=
    rasDdr_other rfl fun hc => RasDdr.write_ne_read (hhead _ hc)
  rcases hy with rfl | rfl
  · exact hother
  · exact hother

/-- The IO module. -/
abbrev rasIo (b : Board) : WordMachine b (RasDdr b × RegFile b) := (rasDdr b).both (regFile b)

abbrev ioSys (b : Board) : Sys Op Ans (World (RasDdr b × RegFile b)) := sys (latched (rasIo b))

/-- The words `l` of the register at `addr` have been placed. -/
structure Fetching (regs : BitVec 16 → BitVec b.regWidth) (addr : BitVec 16) (l : List (BitVec b.width))
    (x : RasDdr b × RegFile b) : Prop where
  ddr : ∃ ds, takeHead b x.1.words = some (cmdBits b .read, addr, ds)
  words : takeHead b x.2.words = some (cmdBits b .read, addr, l)
  kept : x.2.regs = regs
  placed : l = wordsFrom (fun k => (regWords b (regs addr)).getD k 0) 0 l.length

theorem RasDdr.accept_out (x : RasDdr b) (w : BitVec b.width) : (x.accept w).out = none := by
  have hserve : ∀ (y : RasDdr b) msg, (y.serve msg).out = y.out := by
    intro y msg
    unfold RasDdr.serve
    split
    · split
      · rfl
      · split <;> rfl
    · rfl
  unfold RasDdr.accept
  dsimp only
  split
  · exact hserve _ _
  · rfl

section
variable {regs : BitVec 16 → BitVec b.regWidth} {addr : BitVec 16}

/-- The HLS module is silent, and the registers place the next word. -/
theorem Fetching.next (haddr : addr ≠ commAddrHls) {l : List (BitVec b.width)}
    {x : RasDdr b × RegFile b} (h : Fetching regs addr l x)
    (w : BitVec b.width) :
    ∃ u, (rasIo b).out ((rasIo b).strobe x w) = some u ∧
      Fetching regs addr (l ++ [u]) ((rasIo b).strobe x w) := by
  obtain ⟨⟨ds, hds⟩, hwords, hregs, hplaced⟩ := h
  have hsilent : RasDdr.placed x.1.words = none := by
    unfold RasDdr.placed
    rw [hds]
    exact if_neg fun hno => haddr hno.2
  have hread : readWord x.2.regs x.2.words = some ((regWords b (regs addr)).getD l.length 0) := by
    unfold readWord
    rw [hwords, hregs]
    exact if_pos rfl
  refine ⟨(regWords b (regs addr)).getD l.length 0, ?_, ?_⟩
  · show (x.1.strobe w).out.or (x.2.strobe w).out = _
    rw [RasDdr.strobe_accept hsilent, RasDdr.accept_out, Option.none_or]
    unfold RegFile.strobe
    rw [hread]
  · refine ⟨⟨ds ++ [w], ?_⟩, ?_, ?_, ?_⟩
    · show takeHead b (x.1.strobe w).words = _
      rw [RasDdr.strobe_accept hsilent, RasDdr.accept_words]
      exact takeHead_grows hds [w]
    · show takeHead b (x.2.strobe w).words = _
      unfold RegFile.strobe
      rw [hread]
      exact takeHead_grows hwords _
    · show (x.2.strobe w).regs = _
      unfold RegFile.strobe
      rw [hread]
      exact hregs
    · rw [List.length_append, List.length_singleton, wordsFrom_succ, Nat.zero_add, ← hplaced]

end

/-! ## Sessions -/

inductive IoCall
  | reg (c : RegCall)
  | ddr (c : DdrCall)

namespace IoCall

def prog (b : Board) (fuel : Nat) : IoCall → P (Int × Mem)
  | reg c => c.prog b fuel >>= fun r => ret (r, fun _ => 0#8)
  | ddr c => c.prog b fuel

/-- The sizes fit their headers. -/
def Fits : IoCall → Prop
  | reg _ => True
  | ddr c => c.Fits

end IoCall

/-- The registers and the DDR. -/
structure IoState (b : Board) where
  regs : BitVec 16 → BitVec b.regWidth
  ddr : Nat → BitVec 8

/-- What a register access makes of the registers and answers: a write that fails has stored nothing or
all. -/
def RegCall.Does : RegCall → (BitVec 16 → BitVec b.regWidth) → Int → (BitVec 16 → BitVec b.regWidth) → Prop
  | write addr data, regs, r, regs' =>
    (r = 0 ∧ regs' = setReg regs addr (data.setWidth b.regWidth)) ∨
      (r = -1 ∧ (regs' = regs ∨ regs' = setReg regs addr (data.setWidth b.regWidth)))
  | read addr, regs, r, regs' => regs' = regs ∧ (addr ≠ commAddrHls → r = -1 ∨ r = (regs addr).toNat)

def IoCall.Does : IoCall → IoState b → Int × Mem → IoState b → Prop
  | reg c, s, r, s' => c.Does s.regs r.1 s'.regs ∧ s'.ddr = s.ddr
  | ddr c, s, r, s' => c.Does s.ddr r s'.ddr ∧ SameRegs s.regs s'.regs

section
variable {s : World (RasDdr b × RegFile b)}

end

section
variable {cs : List IoCall} {rs : List (Int × Mem)} {s s' : IoState b}

namespace IoCall

/-- A write to the byte `a`. -/
def Covers (a : Nat) : IoCall → Prop
  | ddr c => c.Covers a
  | reg _ => False

end IoCall

end

end Libfic2
