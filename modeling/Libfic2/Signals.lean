import Libfic2.SelectMap
import Libfic2.HlsLoops

/-!
# Changing and reading levels

Between set-up and release the functions change the output latch, read the pins, and
read the time, and nothing else: what allows these operations (`Signals`) allows
`fic_comm_send` .. `_fic_hls_receive_bytes` and the wait for DONE.  `Within S` is about
the pins of a mask.
-/

namespace Libfic2

open Driver Prog

/-! ## Masks -/

/-- The pins of `v` are in `S`. -/
def Within (S : Nat → Prop) (v : BitVec 32) : Prop := ∀ p, p < 32 → v.getLsbD p = true → S p

section
variable {S S' : Nat → Prop} {v w : BitVec 32}

theorem Within.mono (h : Within S v) (hS : ∀ p, S p → S' p) : Within S' v := fun p hp hv => hS p (h p hp hv)

theorem within_or (hv : Within S v) (hw : Within S w) : Within S (v ||| w) := by
  intro p hp h
  rw [BitVec.getLsbD_or, Bool.or_eq_true] at h
  exact h.elim (hv p hp) (hw p hp)

theorem within_and (hw : Within S w) : Within S (v &&& w) := by
  intro p hp h
  rw [BitVec.getLsbD_and, Bool.and_eq_true] at h
  exact hw p hp h.2

theorem within_pin {q : Nat} (h : S q) : Within S (rpPin q) := by
  intro p hp hb
  rw [getLsbD_bit, Bool.and_eq_true, decide_eq_true_eq, decide_eq_true_eq] at hb
  rwa [hb.2]

theorem within_mask8 (h : ∀ p, 8 ≤ p → p < 16 → S p) : Within S mask8 := by
  intro p hp hv
  have hmask : ∀ p, p < 32 → mask8.getLsbD p = true → 8 ≤ p ∧ p < 16 := by decide
  exact h p (hmask p hp hv).1 (hmask p hp hv).2

theorem within_mask16 (h : ∀ p, 8 ≤ p → p < 24 → S p) : Within S mask16 := by
  intro p hp hv
  have hmask : ∀ p, p < 32 → mask16.getLsbD p = true → 8 ≤ p ∧ p < 24 := by decide
  exact h p (hmask p hp hv).1 (hmask p hp hv).2

end

/-! ## Beginning and end of a programming call -/

section
variable {P : Op → Prop} (hclock : P .clock) (hstat : ∀ f, P (.stat f))

include hclock hstat

theorem ops_progBegin (smap : ProgSmapMode) (size : Nat) (pm : ProgMode) :
    Ops P (progBegin smap size pm) := by
  refine ops_bind (ops_call _ (hstat _)) fun _ => ?_
  refine ops_bind (ops_call _ (hstat _)) fun _ => ?_
  refine ops_bind (ops_call _ (hstat _)) fun _ => ?_
  refine ops_bind (ops_call _ hclock) fun _ => ?_
  refine ops_bind (ops_call _ (hstat _)) fun _ => ?_
  exact ops_bind (ops_call _ (hstat _)) fun _ => ops_call _ (hstat _)

theorem ops_progEnd (hpins : Ops P setAllInput) (st : ProgStatus) (n : Nat) : Ops P (progEnd st n) := by
  refine ops_bind hpins fun _ => ?_
  refine ops_bind (ops_call _ (hstat _)) fun _ => ?_
  refine ops_bind (ops_call _ hclock) fun _ => ?_
  exact ops_bind (ops_call _ (hstat _)) fun _ => trivial

end

/-! ## Waiting and setting pins -/

/-- `Pr` allows SET_GPIO, CLR_GPIO, GET_GPIO and `time`. -/
class Signals (Pr : Op → Prop) : Prop where
  set : ∀ v, Pr (.set v)
  clr : ∀ v, Pr (.clr v)
  get : Pr .get
  time : Pr .time

variable {Pr : Op → Prop} [Signals Pr] (b : Board) (fuel : Nat)

theorem signals_set (v : BitVec 32) : Ops Pr (issue (.set v)) := ops_call _ (Signals.set v)
theorem signals_clr (v : BitVec 32) : Ops Pr (issue (.clr v)) := ops_call _ (Signals.clr v)
theorem signals_get : Ops Pr (issue .get) := ops_call _ Signals.get
theorem signals_time : Ops Pr (issue .time) := ops_call _ Signals.time

theorem signals_spin (c : BitVec 32 → Bool) : Ops Pr (spin fuel c) := ops_spin fuel Signals.get c

theorem signals_pollTimed (c : BitVec 32 → Bool) : Ops Pr (pollTimed fuel c) :=
  ops_pollTimed fuel Signals.get Signals.time c

theorem signals_pollCounted (c : BitVec 32 → Bool) (n : Nat) : Ops Pr (pollCounted c n) :=
  ops_pollCounted Signals.get c n

variable (set : BitVec 32)

theorem signals_ficSetGpio : Ops Pr (ficSetGpio fuel set) :=
  ops_bind (signals_set _) fun _ => signals_pollTimed _ _

theorem signals_ficClrGpio : Ops Pr (ficClrGpio fuel set) :=
  ops_bind (signals_clr _) fun _ => signals_pollTimed _ _

theorem signals_ficSetGpioFast : Ops Pr (ficSetGpioFast fuel set) :=
  ops_bind (signals_set _) fun _ => signals_spin _ _

theorem signals_ficClrGpioFast : Ops Pr (ficClrGpioFast fuel set) :=
  ops_bind (signals_clr _) fun _ => signals_spin _ _

/-! ## Register access -/

theorem signals_ficCommSend (bus : BitVec 32) : Ops Pr (ficCommSend b fuel bus) :=
  ops_check (signals_ficClrGpio _ _) <| ops_check (signals_ficSetGpio _ _) <|
    ops_check (signals_pollTimed _ _) <| ops_check (signals_ficClrGpio _ _) <|
    ops_check (signals_pollTimed _ _) trivial

theorem signals_ficCommSetaddr (addr : BitVec 16) : Ops Pr (ficCommSetaddr b fuel addr) := by
  cases b with
  | mk1 =>
    exact ops_check (signals_ficCommSend _ _ _) <| ops_check (signals_ficCommSend _ _ _) <|
      ops_check (signals_ficCommSend _ _ _) <| ops_check (signals_ficCommSend _ _ _) trivial
  | mk2 => exact ops_check (signals_ficCommSend _ _ _) trivial

theorem signals_ficCommReceive : Ops Pr (ficCommReceive b fuel) := by
  refine ops_check (signals_ficClrGpio _ _) ?_
  refine ops_check (signals_ficSetGpio _ _) ?_
  refine ops_check (signals_pollTimed _ _) ?_
  refine ops_bind signals_get fun _ => ?_
  exact ops_check (signals_ficClrGpio _ _) (ops_check (signals_pollTimed _ _) trivial)

/-! ## HLS transfers -/

theorem signals_ficCommSendFast (bus : BitVec 32) : Ops Pr (ficCommSendFast b fuel bus) := by
  refine ops_bind (signals_ficClrGpio _ _) fun _ => ?_
  refine ops_bind (signals_ficSetGpioFast _ _) fun _ => ?_
  refine ops_bind (signals_pollCounted _ _) fun _ => ?_
  exact ops_bind (signals_ficClrGpioFast _ _) fun _ => trivial

theorem signals_ficCommReceiveFast (rcv : BitVec 32) :
    Ops Pr (ficCommReceiveFast b fuel rcv) := by
  refine ops_bind (signals_ficClrGpioFast _ _) fun _ => ops_bind (signals_ficSetGpioFast _ _) fun _ =>
    ops_bind (signals_pollCounted _ _) fun _ => ?_
  dsimp only
  split
  · trivial
  · exact ops_bind (ops_forDo _ _ fun _ _ _ => ops_bind signals_get fun _ => trivial) fun _ =>
      ops_bind signals_get fun _ => ops_bind (signals_ficClrGpioFast _ _) fun _ => trivial

theorem signals_sendWords (ws : List (BitVec b.width)) (r : Int) : Ops Pr (sendWords b fuel ws r) := by
  induction ws generalizing r with
  | nil => trivial
  | cons w ws ih => exact ops_bind (signals_ficCommSendFast _ _ _) fun _ => ih _

theorem signals_ficHlsSendBytes (data : Mem) (size : Nat) :
    Ops Pr (ficHlsSendBytes b fuel data size) := by
  have last : ∀ r : Int, Ops Pr (if r < 0 then ret (-1) else ret 0 : P Int) := by
    intro r
    split <;> trivial
  rw [ficHlsSendBytes_eq]
  split
  · trivial
  · exact ops_bind (signals_sendWords _ _ _ _) last

theorem signals_receiveRound : Ops Pr (receiveRound b fuel) := by
  cases b with
  | mk1 =>
    refine ops_bind (signals_ficCommReceiveFast _ _ _) fun r1 => ?_
    dsimp only
    split
    · trivial
    · exact ops_bind (signals_ficCommReceiveFast _ _ _) fun r2 => trivial
  | mk2 => exact ops_bind (signals_ficCommReceiveFast _ _ _) fun r1 => trivial

theorem signals_receiveRounds (n i : Nat) (buf : Mem) : Ops Pr (receiveRounds b fuel n i buf) := by
  induction n generalizing i buf with
  | zero => trivial
  | succ n ih =>
    refine ops_bind (signals_receiveRound _ _) fun r => ?_
    split
    · trivial
    · exact ih _ _

theorem signals_ficHlsReceiveBytes (buf : Mem) (size : Nat) :
    Ops Pr (ficHlsReceiveBytes b fuel buf size) := by
  have last : ∀ r : Int × Mem,
      Ops Pr (if r.1 < 0 then ret (-1, r.2) else ret (0, r.2) : P (Int × Mem)) := by
    intro r
    split <;> trivial
  rw [ficHlsReceiveBytes_eq]
  split
  · trivial
  · exact ops_bind (signals_receiveRounds _ _ _ _ _) last

/-! ## Configuration -/

theorem signals_progWait (mask : BitVec 32) (pm : ProgMode) :
    Ops Pr (progWait fuel mask pm) := by
  unfold progWait
  split
  · refine ops_check (ops_bind signals_time fun t1 => ops_loop ?_ _) <|
      ops_check (signals_ficClrGpio _ _) trivial
    refine ops_bind signals_get fun v => ?_
    split
    · refine ops_bind signals_time fun t2 => ops_bind signals_get fun w => ?_
      split
      · trivial
      · exact ops_checkOr (signals_ficSetGpio _ _) <| ops_checkOr (signals_ficClrGpio _ _) trivial
    · trivial
  · trivial

omit [Signals Pr] in
theorem signals_plainInitTest : Ops Pr plainInitTest := trivial

theorem signals_fastInitTest : Ops Pr fastInitTest := by
  refine ops_bind signals_get fun v => ?_
  split <;> trivial

end Libfic2
