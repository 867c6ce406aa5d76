import Libfic2.DeviceRules
import Libfic2.PinSharing

/-!
# PROG_B during partial reconfiguration

PROG_B low resets the FPGA.  In PM_PR no function clears its latch bit, but set-up makes it
an output before it sets this bit, and so drives it low for a moment unless the bit was
already set: `progB_spared_iff`.
-/

namespace Libfic2

open Driver Prog Sys

/-- An operation that does not clear PROG_B. -/
def SparesProgB : Op → Prop
  | .clr v => v.getLsbD rpProgB = false
  | _ => True

section
variable {b : Board} {fuel n : Nat}

theorem progB_pins {o : Op} {g : Gpio} (ho : SparesProgB o) (h : g.lat rpProgB = true) :
    (o.pins g).lat rpProgB = true := by
  cases o with
  | set v => rw [Op.pins, Gpio.lat_set, h, Bool.true_or]
  | clr v =>
    rw [Op.pins, Gpio.lat_clr, h, show v.getLsbD rpProgB = false from ho]
    rfl
  | _ => exact h

/-! ## What the functions clear -/

theorem progB_set (v : BitVec 32) : Ops SparesProgB (issue (.set v)) := ops_call _ trivial
theorem progB_clr {v : BitVec 32} (hv : v.getLsbD rpProgB = false) :
    Ops SparesProgB (issue (.clr v)) := ops_call _ hv

theorem progB_ficSetGpio (v : BitVec 32) : Ops SparesProgB (ficSetGpio fuel v) :=
  ops_bind (progB_set v) fun _ => ops_pollTimed fuel (by trivial) (by trivial) _

theorem progB_ficClrGpio {v : BitVec 32} (hv : v.getLsbD rpProgB = false) :
    Ops SparesProgB (ficClrGpio fuel v) :=
  ops_bind (progB_clr hv) fun _ => ops_pollTimed fuel (by trivial) (by trivial) _

theorem progB_setAllInput : Ops SparesProgB setAllInput := ops_setAllInput fun _ => trivial

theorem progB_setInputOutput (p : Nat) : Ops SparesProgB (setInputOutput p) :=
  ⟨trivial, fun _ => ⟨trivial, fun _ => trivial⟩⟩

theorem progB_ficProgInitSm : Ops SparesProgB (ficProgInitSm b fuel n) := by
  refine ops_bind progB_setAllInput fun _ => ops_check (ops_forEach _ _ fun i _ _ => ?_) ?_
  · refine ops_bind (ops_when fun _ => ops_call _ trivial) fun _ => ops_check ?_ ?_
    · split
      · exact ops_bind (progB_setInputOutput i) fun _ => ops_check (progB_ficSetGpio _) trivial
      · trivial
    · split
      · next h =>
        have hi : rpProgB ≠ i := by
          rintro rfl
          unfold smLowPin at h
          simp at h
        exact ops_bind (progB_setInputOutput i) fun _ =>
          ops_check (progB_ficClrGpio (getLsbD_bit_of_ne hi)) trivial
      · trivial
  · cases b with
    | mk1 => trivial
    | mk2 => exact ops_bind (ops_call _ trivial) fun _ => ops_check (progB_ficSetGpio _) trivial

theorem progB_ficProgInit : Ops SparesProgB (ficProgInit b fuel .pr) := by
  refine ops_check ?_ <| ops_bind (progB_setInputOutput _) fun _ =>
    ops_bind (progB_setInputOutput _) fun _ =>
    ops_bind (progB_setInputOutput _) fun _ =>
      ops_check (progB_ficSetGpio _) (ops_check (progB_ficClrGpio (by decide)) trivial)
  cases b with
  | mk1 => trivial
  | mk2 => exact ops_bind (ops_call _ trivial) fun _ => ops_check (progB_ficSetGpio _) trivial

theorem progB_body (f : ProgFn) (data : Mem) (size : Nat) : Ops SparesProgB (f.body fuel data size) := by
  have hno : ¬ smLowPin f.lanes rpProgB = true := by cases f <;> decide
  refine ops_body ⟨trivial, trivial, fun _ _ => trivial, fun v hv => ?_⟩ (lowPin_cclk f)
    (fun _ => trivial) data f (within_lowPins f) size
  show v.getLsbD rpProgB = false
  rw [Bool.eq_false_iff]
  exact mt (hv rpProgB (by decide)) hno

theorem progB_initTest (f : ProgFn) : Ops SparesProgB f.initTest := by
  have hfast : Ops SparesProgB fastInitTest := by
    refine ops_bind (ops_call _ trivial) fun v => ?_
    split <;> trivial
  cases f with
  | sm8 => trivial
  | sm16 => trivial
  | sm8Fast => exact hfast
  | sm16Fast => exact hfast

theorem progB_progEnd (st : ProgStatus) (k : Nat) : Ops SparesProgB (progEnd st k) :=
  ops_progEnd trivial (fun _ => trivial) progB_setAllInput st k

/-- In PM_PR the wait for DONE is left out. -/
theorem progB_progFinish (f : ProgFn) (r : Option Nat) :
    Ops SparesProgB (progFinish fuel f.initTest f.mask .pr r) := by
  cases r with
  | none => exact progB_progEnd _ _
  | some i =>
    refine ops_bind (ops_check (progB_initTest f) trivial) fun w => ?_
    split <;> exact progB_progEnd _ _

theorem progB_prog (f : ProgFn) (data : Mem) (size : Nat) :
    Ops SparesProgB (f.prog b fuel data size .pr) := by
  rw [ProgFn.prog_eq]
  have hbegin : Ops SparesProgB (progBegin f.smap size .pr) :=
    ops_progBegin trivial (fun _ => trivial) f.smap size .pr
  refine ops_bind (ops_bind hbegin fun _ => ops_checkOr ?_ ?_) (progB_progFinish f)
  · exact ops_check progB_ficProgInitSm
      (ops_check progB_ficProgInit (ops_check (progB_ficClrGpio (by decide)) trivial))
  · exact ops_bind (ops_call _ trivial) fun _ => progB_body f data size

end

/-! ## The result -/

section
variable {D : Type} {dev : Device D} {s : World D}

/-- The call up to the moment at which PROG_B becomes an output. -/
theorem prog_opens (b : Board) (fuel : Nat) (f : ProgFn) (data : Mem) (size : Nat) (pm : ProgMode) :
    ∃ k : Unit → P Nat, f.prog b fuel data size pm = progBegin f.smap size pm >>= fun _ =>
      op (.clearSel 0) fun _ => op (.clearSel 1) fun _ => op (.clearSel 2) fun _ =>
      op (.setInput rpInit) fun _ => op (.setInput rpProgB) fun _ => op (.setOutput rpProgB) k := by
  cases b <;> cases f <;> exact ⟨_, rfl⟩

/-- With its latch bit 0, PROG_B goes low as soon as it is an output. -/
theorem progB_glitch (b : Board) (fuel : Nat) (f : ProgFn) (data : Mem) (size : Nat) (pm : ProgMode)
    (h : s.gpio.lat rpProgB = false) :
    ∃ y, (sys dev).Run (f.prog b fuel data size pm, s) y ∧ y.2.gpio.low rpProgB = true := by
  obtain ⟨k, hprog⟩ := prog_opens b fuel f data size pm
  have hfirst : can (sys dev) (fun _ u => u.gpio = s.gpio) (progBegin f.smap size pm) s :=
    can_progBegin f.smap size pm (k := ret) rfl
  obtain ⟨_, u, hbegin, hu⟩ := can_run hfirst
  rw [hprog]
  refine ⟨_, (run_bind _ hbegin).trans
    (.head (.act (a := ()) rfl) (.head (.act (a := ()) rfl) (.head (.act (a := ()) rfl)
    (.head (.act (a := ()) rfl) (.head (.act (a := ()) rfl) (.single (.act (a := ()) rfl))))))), ?_⟩
  rw [← hu] at h
  let g0 := ((u.gpio.clearSel 0).clearSel 1).clearSel 2
  have hlat : (((g0.setInput rpInit).setInput rpProgB).setOutput rpProgB).lat rpProgB = false := h
  have hlow : (((g0.setInput rpInit).setInput rpProgB).setOutput rpProgB).low rpProgB = true := by
    unfold Gpio.low
    rw [hlat, Gpio.isOut_setInputOutput]
    rfl
  exact hlow

/-- **PROG_B is never driven low** in PM_PR exactly when its latch bit is set at entry. -/
theorem progB_spared_iff (dev : Device D) (b : Board) (fuel : Nat) (f : ProgFn) (data : Mem)
    (size : Nat) (s : World D) :
    (∀ y, (sys dev).Run (f.prog b fuel data size .pr, s) y → y.2.gpio.low rpProgB = false) ↔
    s.gpio.lat rpProgB = true := by
  constructor
  · intro hall
    cases h : s.gpio.lat rpProgB with
    | true => rfl
    | false =>
      obtain ⟨y, hy, hlow⟩ := @progB_glitch D dev s b fuel f data size .pr h
      rw [hall y hy] at hlow
      cases hlow
  · intro h y hy
    have hkeep : KeepsOps (sys dev) SparesProgB fun t => t.gpio.lat rpProgB = true :=
      keepsOps_gpio (X := fun g => g.lat rpProgB = true) fun _ _ ho hg => progB_pins ho hg
    obtain ⟨p, t⟩ := y
    have hwp := wp_of_ops hkeep (@progB_prog b fuel f data size) h
    have hlat : t.gpio.lat rpProgB = true := wp_run_inv (J := fun u => u.gpio.lat rpProgB = true) hwp hy
    unfold Gpio.low
    rw [hlat, Bool.not_true, Bool.and_false]

/-- From a latch bit that was never set, as at boot. -/
theorem progB_goes_low :
    ¬ ∀ (D : Type) (dev : Device D) (b : Board) (fuel : Nat) (f : ProgFn) (data : Mem)
      (size : Nat) (s : World D),
    ∀ y, (sys dev).Run (f.prog b fuel data size .pr, s) y → y.2.gpio.low rpProgB = false := by
  intro hall
  obtain ⟨y, hy, hlow⟩ :=
    @progB_glitch Unit passive World.start .mk2 1 .sm8 (fun _ => 0#8) 1 .pr (by decide)
  rw [hall Unit passive .mk2 1 .sm8 (fun _ => 0#8) 1 World.start y hy] at hlow
  cases hlow

end

end Libfic2
