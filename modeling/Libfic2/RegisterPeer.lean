import Libfic2.CommWords
import Libfic2.WireFormat

/-!
# A register file behind the bus

`registerPeer b` is a peer with a register for each address.  While RREQ is high it runs
the four-phase handshake: with RSTB high it takes the word on the data pins, or
places the next word of the register that a read has addressed, raises FACK, and lowers
it when RSTB is low.  When RREQ is low it goes idle and lowers FREQ.  Each of these is a
step of its own that may come at any time, or never.

* `Core.respond`: what it makes of one word.
* `registerChannel`: it is a `Channel`; `registerReceived`: it hands over words.
-/

namespace Libfic2

open Driver Prog Sys

/-! ## Registers as words -/

/-- Width of a register. -/
def Board.regWidth : Board → Nat
  | mk1 => 8
  | mk2 => 16

/-- A register: two nibbles, high first, or one word. -/
def regWords : (b : Board) → BitVec b.regWidth → List (BitVec b.width)
  | .mk1, x => nibbles x
  | .mk2, x => [x]

def wordsReg : (b : Board) → List (BitVec b.width) → Option (BitVec b.regWidth)
  | .mk1, [h, l] => some (@HAppend.hAppend (BitVec 4) (BitVec 4) (BitVec 8) _ h l)
  | .mk2, [w] => some w
  | _, _ => none

/-- One register set. -/
def setReg {b : Board} (regs : BitVec 16 → BitVec b.regWidth) (a : BitVec 16) (x : BitVec b.regWidth) :
    BitVec 16 → BitVec b.regWidth :=
  fun a' => if a' = a then x else regs a'

/-! ## The peer -/

/-- The words of the transaction so far (`none` when idle), the registers, the word on the bus and
all words that were ever accepted. -/
@[ext] structure Core (b : Board) where
  words : Option (List (BitVec b.width))
  regs : BitVec 16 → BitVec b.regWidth
  out : Option (BitVec b.width)
  accepted : List (BitVec b.width)

structure RegPeer (b : Board) where
  phase : Handshake
  core : Core b

variable {b : Board}

/-- In a read after the address: the next word of the register. -/
def readWord (regs : BitVec 16 → BitVec b.regWidth) (ws : List (BitVec b.width)) :
    Option (BitVec b.width) :=
  match takeHead b ws with
  | some (c, a, ds) => if c = cmdBits b .read then some ((regWords b (regs a)).getD ds.length 0) else none
  | none => none

/-- The registers when `ws` are the words of the transaction: a complete write stores its data. -/
def writeRegs (regs : BitVec 16 → BitVec b.regWidth) (ws : List (BitVec b.width)) :
    BitVec 16 → BitVec b.regWidth :=
  match takeHead b ws with
  | some (c, a, ds) =>
    if c = cmdBits b .write then
      match wordsReg b ds with
      | some x => setReg regs a x
      | none => regs
    else regs
  | none => regs

/-- One word: in the data part of a read the peer places it, otherwise it accepts the word `w` on
the data pins. -/
def Core.respond (c : Core b) (w : BitVec b.width) : Core b :=
  match c.words with
  | none => c
  | some ws =>
    match readWord c.regs ws with
    | some u => { c with words := some (ws ++ [u]), out := some u }
    | none => ⟨some (ws ++ [w]), writeRegs c.regs (ws ++ [w]), none, c.accepted ++ [w]⟩

inductive RegPeer.Step (g : Gpio) : RegPeer b → RegPeer b → Prop
  | wake (d : RegPeer b) (hreq : g.high b.rpRreq = true) (hidle : d.core.words = none) :
      Step g d ⟨d.phase, { d.core with words := some [], out := none }⟩
  | respond (d : RegPeer b) (float : BitVec 32) (hreq : g.high b.rpRreq = true)
      (hstb : g.high b.rpRstb = true) (hphase : d.phase = .ready) (hbusy : d.core.words ≠ none) :
      Step g d ⟨.taken, d.core.respond (g.bus float b.rpDataLow b.width)⟩
  | raise (d : RegPeer b) (hphase : d.phase = .taken) : Step g d ⟨.acked, d.core⟩
  | lower (d : RegPeer b) (hstb : g.high b.rpRstb = false) (hphase : d.phase = .acked) :
      Step g d ⟨.ready, d.core⟩
  | sleep (d : RegPeer b) (hreq : g.high b.rpRreq = false) (hbusy : d.core.words ≠ none) :
      Step g d ⟨.ready, { d.core with words := none, out := none }⟩

variable (b) in
/-- FACK and FREQ show the peer's state; a word that was placed stays on the bus until RSTB falls.
All else that GET_GPIO reads is arbitrary. -/
def registerPeer : Device (RegPeer b) where
  level g d v :=
    (g.fn b.rpFack = 0#3 → v.getLsbD b.rpFack = decide (d.phase = .acked)) ∧
    (g.fn b.rpFreq = 0#3 → v.getLsbD b.rpFreq = d.core.words.isSome) ∧
    ∀ w, d.core.out = some w → d.phase = .acked → g.high b.rpRstb = true →
      ∀ p, dataPin b p = true → g.fn p = 0#3 → v.getLsbD p = w.getLsbD (p - b.rpDataLow)
  seen _ _ d := d
  env g := RegPeer.Step g

/-! ## Assertions -/

/-- The peer is as after the words of `a`; before the first word it may still be idle. -/
def Tracks (a c : Core b) : Prop :=
  c = a ∨ (c.words = none ∧ a.words = some [] ∧ a.out = none ∧ c.regs = a.regs ∧ c.accepted = a.accepted)

/-- It waits for the next word. -/
def Awaits (a : Core b) (d : RegPeer b) : Prop := d.phase = .ready ∧ Tracks a d.core

/-- RSTB is up: it waits, or has reacted and become `c`. -/
def Reacts (a c : Core b) (d : RegPeer b) : Prop := Awaits a d ∨ (d.phase ≠ .ready ∧ d.core = c)

/-- RSTB is down again: FACK may still be up. -/
def Reacted (c : Core b) (d : RegPeer b) : Prop := d.phase ≠ .taken ∧ d.core = c

theorem Tracks.wake {a c : Core b} (h : Tracks a c) (hidle : c.words = none) (ha : a.words ≠ none) :
    ({ c with words := some [], out := none } : Core b) = a := by
  rcases h with rfl | ⟨-, hw, ho, hr, hl⟩
  · exact absurd hidle ha
  · cases a
    cases c
    simp_all

theorem Tracks.busy {a c : Core b} (h : Tracks a c) (hbusy : c.words ≠ none) : c = a := by
  rcases h with h | ⟨hidle, -⟩
  · exact h
  · exact absurd hidle hbusy

section
variable {g : Gpio} {d d' : RegPeer b} {a c : Core b} (ha : a.words ≠ none) (hstep : RegPeer.Step g d d')
include ha hstep

/-- Without a strobe a waiting peer waits on. -/
theorem Awaits.step (hg : g.high b.rpRreq = false ∨ g.high b.rpRstb = false)
    (hsleep : g.high b.rpRreq = true ∨ (a.words = some [] ∧ a.out = none))
    (h : Awaits a d) : Awaits a d' := by
  obtain ⟨hphase, htrack⟩ := h
  cases hstep with
  | wake _ hidle => exact ⟨hphase, .inl (htrack.wake hidle ha)⟩
  | respond _ hreq hstb => rcases hg with hg | hg <;> simp_all
  | raise hp => simp_all
  | lower _ hp => simp_all
  | sleep hreq hbusy =>
    have hc := htrack.busy hbusy
    rcases hsleep with hs | ⟨hw, ho⟩
    · simp_all
    · exact ⟨rfl, .inr ⟨rfl, hw, ho, by rw [hc], by rw [hc]⟩⟩

/-- While RSTB is up, the peer reacts at most once. -/
theorem Reacts.step (hreq : g.high b.rpRreq = true) (hstb : g.high b.rpRstb = true)
    (hc : ∀ float, a.respond (g.bus float b.rpDataLow b.width) = c)
    (hcw : c.words ≠ none) (h : Reacts a c d) : Reacts a c d' := by
  cases hstep with
  | wake _ hidle =>
    rcases h with ⟨hphase, htrack⟩ | ⟨-, hcore⟩
    · exact .inl ⟨hphase, .inl (htrack.wake hidle ha)⟩
    · rw [hcore] at hidle
      exact absurd hidle hcw
  | respond float _ _ hphase hbusy =>
    rcases h with ⟨-, htrack⟩ | ⟨hne, -⟩
    · exact .inr ⟨by simp, by rw [htrack.busy hbusy, hc]⟩
    · exact absurd hphase hne
  | raise hp =>
    rcases h with ⟨hphase, -⟩ | ⟨-, hcore⟩
    · simp_all
    · exact .inr ⟨by simp, hcore⟩
  | lower hlow => simp_all
  | sleep hlow => simp_all

omit ha in
/-- Once RSTB is down, the peer lowers FACK and waits. -/
theorem Reacted.step (hreq : g.high b.rpRreq = true) (hstb : g.high b.rpRstb = false) (hcw : c.words ≠ none)
    (h : Reacted c d) : Reacted c d' := by
  obtain ⟨hphase, hcore⟩ := h
  cases hstep with
  | wake _ hidle =>
    rw [hcore] at hidle
    exact absurd hidle hcw
  | respond _ _ hhigh => simp_all
  | raise hp => exact absurd hp hphase
  | lower => exact ⟨by simp, hcore⟩
  | sleep hlow => simp_all

end

/-- FACK is up. -/
def Acked (c : Core b) (d : RegPeer b) : Prop := d.phase = .acked ∧ d.core = c

theorem Acked.step {g : Gpio} {d d' : RegPeer b} {c : Core b} (hstep : RegPeer.Step g d d')
    (hreq : g.high b.rpRreq = true) (hstb : g.high b.rpRstb = true) (hcw : c.words ≠ none) (h : Acked c d) :
    Acked c d' := by
  obtain ⟨hphase, hcore⟩ := h
  cases hstep with
  | wake _ hidle =>
    rw [hcore] at hidle
    exact absurd hidle hcw
  | respond _ _ _ hp => simp_all
  | raise hp => simp_all
  | lower hlow => simp_all
  | sleep hlow => simp_all

theorem respond_words {c : Core b} (h : c.words ≠ none) (w : BitVec b.width) :
    (c.respond w).words ≠ none := by
  unfold Core.respond
  split
  · exact h
  · split <;> simp

/-! ## The peer as a channel -/

variable (b) in
/-- It takes words by the handshake. -/
def registerChannel : Channel b (registerPeer b) (Core b) where
  ready a d := a.words ≠ none ∧ Awaits a d
  next a w := a.respond w
  armed a := ⟨fun g d d' hg h he => ⟨h.1, h.2.step h.1 he (.inr hg.2) (.inl hg.1)⟩, fun _ _ _ _ _ h => h⟩
  sent a w := by
    refine ⟨fun d => a.words ≠ none ∧ Reacts a (a.respond w) d,
      fun d => a.words ≠ none ∧ Acked (a.respond w) d,
      fun d => a.words ≠ none ∧ Reacted (a.respond w) d, ?_, ?_⟩
    · constructor
      · exact ⟨fun g d d' hg h he => ⟨h.1, h.2.step h.1 he (.inr hg.2) (.inl hg.1)⟩, fun _ _ _ _ _ h => h⟩
      · intro g g' d _ _ h
        exact ⟨h.1, .inl h.2⟩
      · intro g d d' hg h he
        refine ⟨h.1, h.2.step h.1 he hg.rreq hg.strobe (fun float => ?_) (respond_words h.1 w)⟩
        rw [hg.bus float]
      · intro g d v hg h hv hack
        have hphase : d.phase = .acked := by
          have := hv.1 hg.fack
          rw [hack] at this
          exact of_decide_eq_true this.symm
        refine ⟨h.1, hphase, ?_⟩
        rcases h.2 with hw | hw
        · have := hw.1
          simp_all
        · exact hw.2
      · intro g d d' hg h he
        exact ⟨h.1, h.2.step he hg.rreq hg.strobe (respond_words h.1 w)⟩
      · intro g g' d _ _ h
        exact ⟨h.1, Handshake.ne_taken h.2.1, h.2.2⟩
      · intro g d d' hg h he
        exact ⟨h.1, h.2.step he hg.rreq hg.strobe (respond_words h.1 w)⟩
    · intro g d v hg h hv hack
      have hne : d.phase ≠ .acked := by
        have := hv.1 hg.fack
        rw [hack] at this
        exact of_decide_eq_false this.symm
      exact ⟨respond_words h.1 w, Handshake.eq_ready h.2.1 hne, .inl h.2.2⟩

/-- In the data part of a read it hands over the word `u`. -/
theorem registerReceived {a c : Core b} {u : BitVec b.width} (ha : a.words ≠ none)
    (hc : ∀ w, a.respond w = c) (hu : c.out = some u) :
    WordReceived b (registerPeer b) (Awaits a) (Reacts a c) (fun u' d => u' = u ∧ Acked c d)
      (fun u' d => u' = u ∧ Reacted c d) := by
  have hcw : c.words ≠ none := by
    rw [← hc 0]
    exact respond_words ha 0
  constructor
  · exact ⟨fun g d d' hg h he => h.step ha he (.inr hg.2) (.inl hg.1), fun _ _ _ _ _ h => h⟩
  · intro g g' d _ _ h
    exact .inl h
  · intro g d d' hg h he
    exact h.step ha he hg.rreq hg.strobe (fun float => hc _) hcw
  · intro g d v hg h hv hack
    have hphase : d.phase = .acked := by
      have := hv.1 hg.fack
      rw [hack] at this
      exact of_decide_eq_true this.symm
    refine ⟨u, rfl, hphase, ?_⟩
    rcases h with hw | hw
    · have := hw.1
      simp_all
    · exact hw.2
  · intro u' g d d' hg h he
    exact ⟨h.1, h.2.step he hg.rreq hg.strobe hcw⟩
  · rintro u' g d v hg ⟨rfl, hphase, rfl⟩ hv
    ext j hj
    have hp : dataPin b (b.rpDataLow + j) = true := by rw [dataPin_iff]; omega
    have := hv.2.2 u' hu hphase hg.strobe _ hp (hg.inputs _ hp)
    rw [Nat.add_sub_cancel_left] at this
    unfold busBits
    rw [← BitVec.getLsbD_eq_getElem, ← BitVec.getLsbD_eq_getElem, BitVec.getLsbD_setWidth,
      BitVec.getLsbD_ushiftRight, decide_eq_true hj, Bool.true_and, this]
  · rintro u' g g' d _ _ ⟨rfl, hphase, hcore⟩
    exact ⟨rfl, Handshake.ne_taken hphase, hcore⟩
  · intro u' g d d' hg h he
    exact ⟨h.1, h.2.step he hg.rreq hg.strobe hcw⟩

/-- What FACK down tells after a word has been handed over. -/
theorem registerReceived_down {c : Core b} {u : BitVec b.width} (u' : BitVec b.width)
    (g : Gpio) (d : RegPeer b)
    (v : BitVec 32) (hg : Listening b false g) (h : u' = u ∧ Reacted c d)
    (hv : (registerPeer b).level g d v) (hack : v.getLsbD b.rpFack = false) : u' = u ∧ Awaits c d := by
  have hne : d.phase ≠ .acked := by
    have := hv.1 hg.fack
    rw [hack] at this
    exact of_decide_eq_false this.symm
  exact ⟨h.1, Handshake.eq_ready h.2.1 hne, .inl h.2.2⟩

/-! ## Between transactions -/

/-- No word yet. -/
def Core.start (regs : BitVec 16 → BitVec b.regWidth) (l : List (BitVec b.width)) : Core b :=
  ⟨some [], regs, none, l⟩

/-- The transaction is over, FREQ may still be up. -/
def Leaves (a : Core b) (d : RegPeer b) : Prop :=
  d.phase = .ready ∧ d.core.regs = a.regs ∧ d.core.accepted = a.accepted

theorem start_calm (regs : BitVec 16 → BitVec b.regWidth) (l : List (BitVec b.width)) :
    CalmStable b (registerPeer b) ((registerChannel b).ready (Core.start regs l)) :=
  ⟨fun _ _ _ hg h he => ⟨h.1, h.2.step h.1 he hg (.inr ⟨rfl, rfl⟩)⟩, fun _ _ _ _ _ h => h⟩

theorem leaves_calm (a : Core b) : CalmStable b (registerPeer b) (Leaves a) := by
  constructor
  · rintro g d d' hg ⟨hphase, hregs, hacc⟩ he
    cases he with
    | wake => exact ⟨hphase, hregs, hacc⟩
    | respond _ hreq hstb => rcases hg with hg | hg <;> simp_all
    | raise hp => simp_all
    | lower => exact ⟨rfl, hregs, hacc⟩
    | sleep => exact ⟨rfl, hregs, hacc⟩
  · intro _ _ _ _ _ h
    exact h

theorem Awaits.leaves {a : Core b} {d : RegPeer b} (h : Awaits a d) : Leaves a d := by
  obtain ⟨hphase, rfl | ⟨-, -, -, hr, hl⟩⟩ := h
  · exact ⟨hphase, rfl, rfl⟩
  · exact ⟨hphase, hr, hl⟩

/-- FREQ down: the peer is idle. -/
theorem Leaves.idle {a : Core b} {g : Gpio} {d : RegPeer b} {v : BitVec 32}
    (hg : Released b g) (h : Leaves a d)
    (hv : (registerPeer b).level g d v) (hreq : v.getLsbD b.rpFreq = false) :
    (registerChannel b).ready (Core.start a.regs a.accepted) d := by
  obtain ⟨hphase, hregs, hacc⟩ := h
  have hidle : d.core.words = none := by
    have := hv.2.1 hg.freq
    rw [hreq] at this
    exact Option.isNone_iff_eq_none.1 (by rw [← Option.not_isSome, ← this]; rfl)
  exact ⟨by simp [Core.start], hphase, .inr ⟨hidle, rfl, rfl, hregs, hacc⟩⟩

end Libfic2
