import Libfic2.PinDirection

/-!
# The shared pins of mk2

On mk2 the register interface and the configuration interface use the same pins:
RSTB is INIT (4), RREQ is DONE (6), FREQ is CSI_B (26), FACK is RDWR_B (27), and
CFSEL (25) driven high switches them to configuration.  `NoClash` says neither
side drives what the other one drives.

A session is any sequence of public calls, each with any outcome, on any device.
Every call but `fic_prog_init` opens with SET_ALL_INPUT, so that one of `ProgSide`
(4 and 6 inputs) and `CommSide` (25, 26, 27 inputs) holds at every moment.
`fic_prog_init` does not, and called with pin 4 or 6 still an output it clashes:
`noClash_iff_progInit_ready`.
-/

namespace Libfic2

open Driver Prog

/-! ## Sessions -/

/-- The public calls that touch the pins. -/
inductive Call
  | commReset
  | write (addr data : BitVec 16)
  | read (addr : BitVec 16)
  | hlsSend (data : Mem) (size : Nat)
  | hlsReceive (buf : Mem) (size : Nat)
  | hlsWrite (data : Mem) (size : Nat) (addr ctrl : BitVec 32)
  | hlsRead (buf : Mem) (size : Nat) (addr ctrl : BitVec 32)
  | hlsDdrWrite (data : Mem) (size : Nat) (addr : BitVec 32)
  | hlsDdrRead (buf : Mem) (size : Nat) (addr : BitVec 32)
  | hlsDdrDebug (buf : Mem) (size : Nat) (addr : BitVec 32)
  | hlsStart
  | hlsReset
  | progInit (pm : ProgMode)
  | progSm8 (data : Mem) (size : Nat) (pm : ProgMode)
  | progSm16 (data : Mem) (size : Nat) (pm : ProgMode)
  | progSm8Fast (data : Mem) (size : Nat) (pm : ProgMode)
  | progSm16Fast (data : Mem) (size : Nat) (pm : ProgMode)

/-- Run `p` and drop its answer. -/
def discard {α : Type} (p : P α) : P Unit := p >>= fun _ => ret ()

def Call.prog (b : Board) (fuel : Nat) : Call → P Unit
  | commReset => discard (ficCommReset b fuel)
  | write addr data => discard (ficWrite b fuel addr data)
  | read addr => discard (ficRead b fuel addr)
  | hlsSend data size => discard (ficHlsSend b fuel data size)
  | hlsReceive buf size => discard (ficHlsReceive b fuel buf size)
  | hlsWrite data size addr ctrl => discard (ficHlsWrite b fuel data size addr ctrl)
  | hlsRead buf size addr ctrl => discard (ficHlsRead b fuel buf size addr ctrl)
  | hlsDdrWrite data size addr => discard (ficHlsDdrWrite b fuel data size addr)
  | hlsDdrRead buf size addr => discard (ficHlsDdrRead b fuel buf size addr)
  | hlsDdrDebug buf size addr => discard (ficHlsDdrDebug b fuel buf size addr)
  | hlsStart => discard (ficHlsStart b fuel)
  | hlsReset => discard (ficHlsReset b fuel)
  | progInit pm => discard (ficProgInit b fuel pm)
  | progSm8 data size pm => discard (ficProgSm8 b fuel data size pm)
  | progSm16 data size pm => discard (ficProgSm16 b fuel data size pm)
  | progSm8Fast data size pm => discard (ficProgSm8Fast b fuel data size pm)
  | progSm16Fast data size pm => discard (ficProgSm16Fast b fuel data size pm)

/-- What a session can reach from all pins inputs, when a call `c` is made only in states with
`ok c`: the rest of the running call, and the world. -/
inductive Reached {D : Type} (dev : Device D) (ok : Call → Gpio → Prop) : P Unit × World D → Prop
  | init (s : World D) : s.gpio.AllInput → Reached dev ok (ret (), s)
  | call (c : Call) (fuel : Nat) (s : World D) :
      Reached dev ok (ret (), s) → ok c s.gpio → Reached dev ok (c.prog .mk2 fuel, s)
  | step (x y : P Unit × World D) : Reached dev ok x → (sys dev).Step x y → Reached dev ok y

/-! ## The invariant -/

/-- Pin `p` is an input. -/
def Gpio.Input (g : Gpio) (p : Nat) : Prop := g.fn p = 0#3

/-- With CFSEL driven high pins 4 and 6 are inputs, and with pin 6 an output pins 25, 26 and 27 are. -/
def NoClash (g : Gpio) : Prop :=
  (g.high 25 = true → g.Input 4 ∧ g.Input 6) ∧
  (g.isOut 6 = true → g.Input 25 ∧ g.Input 26 ∧ g.Input 27)

def ProgSide (g : Gpio) : Prop := g.Input 4 ∧ g.Input 6
def CommSide (g : Gpio) : Prop := g.Input 25 ∧ g.Input 26 ∧ g.Input 27

/-- One of the two interfaces is off. -/
def OneSide (g : Gpio) : Prop := ProgSide g ∨ CommSide g

theorem isOut_of_input {g : Gpio} {p : Nat} (h : g.Input p) : g.isOut p = false := by
  unfold Gpio.isOut
  rw [show g.fn p = 0#3 from h]
  rfl

theorem OneSide.noClash {g : Gpio} (h : OneSide g) : NoClash g := by
  rcases h with ⟨h4, h6⟩ | ⟨h25, h26, h27⟩
  · exact ⟨fun _ => ⟨h4, h6⟩, fun h => by rw [isOut_of_input h6] at h; cases h⟩
  · refine ⟨fun h => ?_, fun _ => ⟨h25, h26, h27⟩⟩
    unfold Gpio.high at h
    rw [isOut_of_input h25] at h
    cases h

/-- An operation that makes only pins of `A` outputs leaves the inputs outside `A`. -/
theorem input_pins {A : Nat → Prop} {o : Op} {g : Gpio} {p : Nat} (ho : Outputs A o) (hp : ¬ A p)
    (h : g.Input p) : (o.pins g).Input p := by
  unfold Gpio.Input at *
  cases o with
  | setInput q => simp only [Op.pins, Gpio.fn_setInput]; split <;> first | rfl | exact h
  | setOutput q =>
    have : p ≠ q := fun e => hp (e ▸ ho)
    simp only [Op.pins, Gpio.fn_setOutput, if_neg this, h]
  | clearSel r => simp only [Op.pins, Gpio.fn_clearSel]; split <;> first | rfl | exact h
  | _ => exact h

theorem input_clearSel {g : Gpio} {p : Nat} (r : Nat) (h : g.Input p) : (g.clearSel r).Input p :=
  input_pins (A := fun _ => False) (o := .clearSel r) trivial id h

theorem OneSide.clearSel (g : Gpio) (r : Nat) (h : OneSide g) : OneSide (g.clearSel r) :=
  h.imp (fun ⟨h4, h6⟩ => ⟨input_clearSel r h4, input_clearSel r h6⟩)
    fun ⟨h25, h26, h27⟩ => ⟨input_clearSel r h25, input_clearSel r h26, input_clearSel r h27⟩

variable {D : Type} {dev : Device D}

theorem keeps_progSide :
    KeepsOps (sys dev) (Outputs fun p => p ≠ 4 ∧ p ≠ 6) fun s => ProgSide s.gpio :=
  keepsOps_gpio fun _ _ ho h => ⟨input_pins ho (by simp) h.1, input_pins ho (by simp) h.2⟩

theorem keeps_commSide :
    KeepsOps (sys dev) (Outputs fun p => p ≠ 25 ∧ p ≠ 26 ∧ p ≠ 27) fun s => CommSide s.gpio :=
  keepsOps_gpio fun _ _ ho h =>
    ⟨input_pins ho (by simp) h.1, input_pins ho (by simp) h.2.1, input_pins ho (by simp) h.2.2⟩

/-! ## Calls that open with SET_ALL_INPUT -/

/-- The first operations of `p` are those of SET_ALL_INPUT. -/
def OpensReset {α : Type} (p : P α) : Prop :=
  ∃ k, p = op (.clearSel 0) fun _ => op (.clearSel 1) fun _ => op (.clearSel 2) k

theorem opensReset_bind {α β : Type} {p : P α} (h : OpensReset p) (f : α → P β) :
    OpensReset (p >>= f) := by
  obtain ⟨k, rfl⟩ := h
  exact ⟨fun a => k a >>= f, rfl⟩

theorem opensReset_ficCommSetup (b : Board) (fuel : Nat) : OpensReset (ficCommSetup b fuel) := ⟨_, rfl⟩

theorem opensReset_ficHlsCommInitiate (b : Board) (fuel : Nat) (cmd : RasioCmd) :
    OpensReset (ficHlsCommInitiate b fuel cmd) :=
  opensReset_bind (opensReset_ficCommSetup b fuel) _

theorem opensReset_progSetup (b : Board) (fuel n : Nat) (pm : ProgMode) :
    OpensReset (progSetup b fuel n pm) :=
  opensReset_bind (show OpensReset (ficProgInitSm b fuel n) from ⟨_, rfl⟩) _

/-- A call that opens with SET_ALL_INPUT and then keeps one side off. -/
theorem wp_opensReset {α : Type} {p : P α} {A : Nat → Prop} {X : Gpio → Prop}
    (hk : KeepsOps (sys dev) (Outputs A) fun s => X s.gpio) (hX : ∀ g, X g → OneSide g)
    (h0 : ∀ g : Gpio, X (((g.clearSel 0).clearSel 1).clearSel 2))
    (hr : OpensReset p) (ho : Ops (Outputs A) p) (s : World D) (h : OneSide s.gpio) :
    wp (sys dev) (fun t => OneSide t.gpio) (fun _ t => OneSide t.gpio) p s := by
  obtain ⟨k, rfl⟩ := hr
  have hsplit : (op (.clearSel 0) fun _ => op (.clearSel 1) fun _ => op (.clearSel 2) k : P α) =
      setAllInput >>= k := rfl
  rw [hsplit]
  refine wp_bind (wp_mono (wp_setAllInput_gpio OneSide.clearSel s h) fun a t _ ht => ?_)
  have hXt : X t.gpio := by rw [ht]; exact h0 _
  have hkeep := wp_of_ops hk (((ho.2 ()).2 ()).2 a) hXt
  exact wp_mono (wp_weaken hkeep fun u => hX u.gpio) fun _ u hu _ => hu

theorem allInput_commSide (g : Gpio) : CommSide (((g.clearSel 0).clearSel 1).clearSel 2) :=
  ⟨g.fn_allInput (by omega), g.fn_allInput (by omega), g.fn_allInput (by omega)⟩

theorem allInput_progSide (g : Gpio) : ProgSide (((g.clearSel 0).clearSel 1).clearSel 2) :=
  ⟨g.fn_allInput (by omega), g.fn_allInput (by omega)⟩

/-- The register and HLS calls. -/
theorem oneSide_comm {α : Type} {p : P α} (hr : OpensReset p)
    (ho : Ops (Works fun p => p ≠ 25 ∧ p ≠ 26 ∧ p ≠ 27) p) (s : World D) (h : OneSide s.gpio) :
    wp (sys dev) (fun t => OneSide t.gpio) (fun _ t => OneSide t.gpio) (discard p) s :=
  wp_opensReset keeps_commSide (fun _ => .inr) allInput_commSide (opensReset_bind hr _)
    (ops_bind (outs_of_works ho) fun _ => ops_ret ()) s h

/-- The programming functions: PROG_STAT first, then the pins. -/
theorem oneSide_prog {n : Nat} (hn : n ≤ 16) (fuel : Nat) (smap : ProgSmapMode) (mask : BitVec 32)
    {test : P Int} {body : P (Option Nat)} (ht : Ops (Works fun p => p ≠ 4 ∧ p ≠ 6) test)
    (hb : Ops (Works fun p => p ≠ 4 ∧ p ≠ 6) body) (size : Nat) (pm : ProgMode) (s : World D)
    (h : OneSide s.gpio) :
    wp (sys dev) (fun t => OneSide t.gpio) (fun _ t => OneSide t.gpio)
      (discard (progLoad .mk2 fuel smap n body size pm >>= progFinish fuel test mask pm)) s := by
  have hpin : ∀ p, progPin .mk2 p = true → p ≠ 4 ∧ p ≠ 6 := by
    intro p hp
    refine ⟨?_, ?_⟩ <;> (intro e; subst e; revert hp; decide)
  have hbegin : KeepsOps (sys dev) (Outputs fun _ => False) fun t => OneSide t.gpio :=
    keepsOps_gpio fun o g ho hg => hg.imp
      (fun hp => ⟨input_pins ho id hp.1, input_pins ho id hp.2⟩)
      fun hc => ⟨input_pins ho id hc.1, input_pins ho id hc.2.1, input_pins ho id hc.2.2⟩
  have hpre : Ops (Outputs fun _ => False) (progBegin smap size pm) :=
    outs_progBegin smap size pm
  have hrest : Ops (Outputs fun p => p ≠ 4 ∧ p ≠ 6)
      (checkOr none (progSetup .mk2 fuel n pm) (issue .time >>= fun _ => body) >>=
        progFinish fuel test mask pm) :=
    ops_bind (outs_of_works
      (ops_checkOr (pinWork_progSetup _ _ hpin hn _) (ops_bind signals_time fun _ => hb)))
      (outs_progFinish fuel ht mask pm)
  have hsplit : discard (progLoad .mk2 fuel smap n body size pm >>= progFinish fuel test mask pm) =
      progBegin smap size pm >>= fun _ => discard
        (checkOr none (progSetup .mk2 fuel n pm) (issue .time >>= fun _ => body) >>=
          progFinish fuel test mask pm) := rfl
  rw [hsplit]
  refine wp_bind (wp_mono (wp_of_ops hbegin hpre h) fun _ t _ ht => ?_)
  exact wp_opensReset keeps_progSide (fun _ => .inl) allInput_progSide
    (opensReset_bind (opensReset_bind (opensReset_bind (opensReset_progSetup _ _ _ _) _) _) _)
    (ops_bind hrest fun _ => ops_ret ()) t ht

/-! ## `fic_prog_init` by itself -/

/-- The condition on a call: `fic_prog_init` is called with pins 4 and 6 inputs. -/
def ProgInitReady : Call → Gpio → Prop
  | .progInit _, g => g.Input 4 ∧ g.Input 6
  | _, _ => True

theorem oneSide_call (c : Call) (fuel : Nat) (s : World D) (h : OneSide s.gpio)
    (hc : ProgInitReady c s.gpio) :
    wp (sys dev) (fun t => OneSide t.gpio) (fun _ t => OneSide t.gpio) (c.prog .mk2 fuel) s := by
  have hpin : ∀ p, commPin .mk2 p = true → p ≠ 25 ∧ p ≠ 26 ∧ p ≠ 27 := by
    intro p hp
    refine ⟨?_, ?_, ?_⟩ <;> (intro e; subst e; revert hp; decide)
  have setup := opensReset_ficCommSetup .mk2 fuel
  have initiate := opensReset_ficHlsCommInitiate .mk2 fuel
  cases c with
  | commReset => exact oneSide_comm (opensReset_bind setup _) (works_ficCommReset _ _ hpin) s h
  | write addr data => exact oneSide_comm (opensReset_bind setup _) (works_ficWrite _ _ hpin _ _) s h
  | read addr => exact oneSide_comm (opensReset_bind setup _) (works_ficRead _ _ hpin _) s h
  | hlsSend data size =>
    exact oneSide_comm (opensReset_bind (initiate _) _) (works_ficHlsSend _ _ hpin _ _) s h
  | hlsReceive buf size =>
    exact oneSide_comm (opensReset_bind (initiate _) _) (works_ficHlsReceive _ _ hpin _ _) s h
  | hlsWrite data size addr ctrl =>
    exact oneSide_comm (opensReset_bind (initiate _) _) (works_ficHlsWrite _ _ hpin _ _ _ _) s h
  | hlsRead buf size addr ctrl =>
    exact oneSide_comm (opensReset_bind (opensReset_bind (initiate _) _) _)
      (works_ficHlsRead _ _ hpin _ _ _ _) s h
  | hlsDdrWrite data size addr =>
    exact oneSide_comm (opensReset_bind (initiate _) _) (works_ficHlsWrite _ _ hpin _ _ _ _) s h
  | hlsDdrRead buf size addr =>
    exact oneSide_comm (opensReset_bind (opensReset_bind (initiate _) _) _)
      (works_ficHlsRead _ _ hpin _ _ _ _) s h
  | hlsDdrDebug buf size addr =>
    exact oneSide_comm (opensReset_bind (opensReset_bind (initiate _) _) _)
      (works_ficHlsDdrDebug _ _ hpin _ _ _) s h
  | hlsStart => exact oneSide_comm (opensReset_bind setup _) (works_hlsCommand _ _ hpin _) s h
  | hlsReset => exact oneSide_comm (opensReset_bind setup _) (works_hlsCommand _ _ hpin _) s h
  | progInit pm =>
    have hprog : ∀ p, progPin .mk2 p = true → p ≠ 4 ∧ p ≠ 6 := by
      intro p hp
      refine ⟨?_, ?_⟩ <;> (intro e; subst e; revert hp; decide)
    have hkeep := wp_of_ops (@keeps_progSide D dev)
      (ops_bind (outs_of_works (pinWork_ficProgInit .mk2 fuel hprog pm)) fun _ => ops_ret ()) hc
    exact wp_mono (wp_weaken hkeep fun t => .inl) fun _ t ht _ => ht
  | progSm8 data size pm =>
    exact oneSide_prog (by omega) fuel _ _ signals_plainInitTest (works_body fuel .sm8 _ _) size pm s h
  | progSm16 data size pm =>
    exact oneSide_prog (by omega) fuel _ _ signals_plainInitTest (works_body fuel .sm16 _ _) size pm s h
  | progSm8Fast data size pm =>
    exact oneSide_prog (by omega) fuel _ _ signals_fastInitTest (works_body fuel .sm8Fast _ _) size pm s h
  | progSm16Fast data size pm =>
    exact oneSide_prog (by omega) fuel _ _ signals_fastInitTest (works_body fuel .sm16Fast _ _) size pm s h

theorem Gpio.AllInput.oneSide {g : Gpio} (h : g.AllInput) : OneSide g :=
  .inl ⟨h.fn (by omega), h.fn (by omega)⟩

/-- One side is off at every moment of a session that calls `fic_prog_init` when it is ready. -/
theorem reached_oneSide {x : P Unit × World D} (h : Reached dev ProgInitReady x) :
    wp (sys dev) (fun t => OneSide t.gpio) (fun _ t => OneSide t.gpio) x.1 x.2 := by
  induction h with
  | init s hs =>
    intro t ht
    show OneSide t.gpio ∧ OneSide t.gpio
    rw [drift_gpio ht]
    exact ⟨hs.oneSide, hs.oneSide⟩
  | call c fuel s _ hc ih =>
    have hs := wp_inv ih
    exact oneSide_call c fuel s hs hc
  | step x y _ hs ih => exact wp_step ih hs

/-- Called with pin 4 or 6 an output and pin 25 an input, `fic_prog_init` clashes as soon as it has
driven CFSEL high, whatever the device does. -/
theorem progInit_clash (fuel : Nat) (pm : ProgMode) (s : World D) (h25 : s.gpio.Input 25)
    (h : ¬ (s.gpio.Input 4 ∧ s.gpio.Input 6)) :
    ∃ y, (sys dev).Run ((Call.progInit pm).prog .mk2 fuel, s) y ∧ ¬ NoClash y.2.gpio := by
  let s1 := s.touch dev (s.gpio.setOutput rpCfsel)
  let s2 := s1.touch dev (s1.gpio.set (rpPin rpCfsel))
  have hact1 : (sys dev).act (.setOutput rpCfsel) s () s1 := rfl
  have hact2 : (sys dev).act (.set (rpPin rpCfsel)) s1 () s2 := rfl
  have hrun : (sys dev).Run ((Call.progInit pm).prog .mk2 fuel, s) (_, s2) :=
    (Relation.ReflTransGen.refl.tail (.act hact1)).tail (.act hact2)
  refine ⟨_, hrun, fun hn => h ?_⟩
  have h25' : s.gpio.fn 25 = 0#3 := h25
  have hhigh : s2.gpio.high 25 = true := by
    show (((s.gpio.setOutput 25).set (rpPin 25)).fn 25 == 1#3 &&
      ((s.gpio.setOutput 25).set (rpPin 25)).lat 25) = true
    simp [h25']
  obtain ⟨h4, h6⟩ := hn.1 hhigh
  have keep : ∀ p, p ≠ 25 → s2.gpio.Input p → s.gpio.Input p := by
    intro p hp hi
    have hi' : ((s.gpio.setOutput 25).set (rpPin 25)).fn p = 0#3 := hi
    show s.gpio.fn p = 0#3
    simpa [hp] using hi'
  exact ⟨keep 4 (by decide) h4, keep 6 (by decide) h6⟩

/-! ## The result -/

/-- In a session whose direct `fic_prog_init` calls are all made with pins 4 and 6 inputs the two
modes never drive each other's pins; and the first such call made otherwise makes them do so. -/
theorem noClash_iff_progInit_ready {D : Type} (dev : Device D) :
    (∀ x, Reached dev ProgInitReady x → NoClash x.2.gpio) ∧
    ∀ s, Reached dev ProgInitReady (ret (), s) → ∀ c fuel,
      (∀ y, (sys dev).Run (c.prog .mk2 fuel, s) y → NoClash y.2.gpio) ↔ ProgInitReady c s.gpio := by
  refine ⟨fun x hx => ?_, fun s hs c fuel => ⟨fun hall => ?_, fun hc y hy => ?_⟩⟩
  · have hone := wp_inv (reached_oneSide hx)
    exact hone.noClash
  · cases c with
    | progInit pm =>
      apply Classical.byContradiction
      intro hnot
      have hone := wp_inv (reached_oneSide hs)
      rcases hone with hp | hc
      · exact hnot hp
      · obtain ⟨y, hy, hclash⟩ := @progInit_clash D dev fuel pm s hc.1 hnot
        exact hclash (hall y hy)
    | _ => trivial
  · have hone := wp_inv (reached_oneSide hs)
    have hsafe := wp_run_inv (oneSide_call c fuel s hone hc) hy
    exact hsafe.noClash

theorem Reached.run {ok : Call → Gpio → Prop} {x y : P Unit × World D} (hx : Reached dev ok x)
    (h : (sys dev).Run x y) : Reached dev ok y := by
  induction h with
  | refl => exact hx
  | tail _ hb ih => exact .step _ _ ih hb

/-- A session that clashes: `fic_comm_reset` leaves RSTB and RREQ driven, and `fic_prog_init` after it
drives CFSEL high. -/
theorem commReset_progInit_clash :
    ¬ ∀ x, Reached passive (fun _ _ => True) x → NoClash x.2.gpio := by
  intro hall
  let e := Sys.follow passiveAnswer 200 (Call.commReset.prog .mk2 1) World.start
  have hrun : (sys passive).Run (Call.commReset.prog .mk2 1, World.start) e :=
    Sys.follow_run (fun o s => ⟨s, .refl, passiveAnswer_act o s⟩) _ _ _
  have hret : e.1 = ret () := Prog.eq_ret_of_answer? (by decide +kernel)
  have h25 : e.2.gpio.Input 25 := show e.2.gpio.fn 25 = 0#3 by decide +kernel
  have h6 : ¬ e.2.gpio.Input 6 := show ¬ e.2.gpio.fn 6 = 0#3 by decide +kernel
  have hstart : Reached passive (fun _ _ => True) (ret (), World.start) := .init _ fun _ _ => rfl
  have hidle : Reached passive (fun _ _ => True) (ret (), e.2) :=
    hret ▸ (Reached.call .commReset 1 _ hstart trivial).run hrun
  obtain ⟨y, hy, hclash⟩ := @progInit_clash Unit passive 1 .normal e.2 h25 fun h => h6 h.2
  exact hclash (hall y ((Reached.call (.progInit .normal) 1 _ hidle trivial).run hy))

end Libfic2
