import Libfic2.Termination
import Libfic2.DeviceRules

/-!
# The masks of fic_set_gpio and fic_clr_gpio

Each of these functions begins by writing its mask to GPSET0 or GPCLR0.  In a session of any
calls, from any content of the function-select registers, all pins written are outputs,
except by two calls: `fic_write` on mk1, whose last mask is COMM_DATABUS_MASK and counts the
data pins from CD4 instead of CD8, and a `fic_prog_init` on mk2 that finds CFSEL in an
alternate function (`masks_driven_iff`).
-/

namespace Libfic2

open Driver Prog

variable {b : Board}

/-- The condition on a call. -/
def MaskReady (b : Board) : Call → Gpio → Prop
  | .write _ _, _ => b = .mk2
  | .progInit _, g => b = .mk2 → g.fn rpCfsel = 0#3 ∨ g.fn rpCfsel = 1#3
  | _, _ => True

/-- What a session of public functions can reach, from any state, when a call `c` is made only with `ok
c`. -/
inductive Session {D : Type} (b : Board) (dev : Device D) (ok : Call → Gpio → Prop) :
    P Unit × World D → Prop
  | init (s : World D) : Session b dev ok (ret (), s)
  | call (c : Call) (fuel : Nat) (s : World D) :
      Session b dev ok (ret (), s) → ok c s.gpio → Session b dev ok (c.prog b fuel, s)
  | done (s : World D) : Session b dev ok (ret (), s) → Session b dev ok (discard ficDone, s)
  | power (s : World D) : Session b dev ok (ret (), s) → Session b dev ok (discard ficPower, s)
  | step (x y : P Unit × World D) : Session b dev ok x → (sys dev).Step x y → Session b dev ok y

/-- The next operation sets and clears outputs only. -/
def NextDriven {D : Type} (x : P Unit × World D) : Prop := ∀ o k, x.1 = .op o k → MaskDriven o x.2.gpio

/-- Outputs only. -/
def outputsOnly : Guard := ⟨MaskDriven, fun _ _ h => h⟩

/-- All that `p` writes from `g` on is driven. -/
def Drives (p : P Unit) (g : Gpio) : Prop := (deadBoard.bench outputsOnly).Allowed Anyhow p g

theorem drives_run {D : Type} {dev : Device D} {p p' : P Unit} {s s' : World D} (h : Drives p s.gpio)
    (hr : (sys dev).Run (p, s) (p', s')) : Drives p' s'.gpio :=
  Bench.allowed_run World.gpio (fun _ _ _ _ => act_gpio) (fun _ _ => env_gpio) h hr

theorem Drives.next {D : Type} {x : P Unit × World D} (h : Drives x.1 x.2.gpio) : NextDriven x := by
  intro o k hk
  rw [hk] at h
  exact h.1

/-! ## The calls that are ready -/

section
variable {S : Nat → Prop} {X : Gpio → Prop}

/-- A call with the wait for INIT between two parts that have contracts. -/
theorem drives_awaitInit {lead : Nat → P Int} {fail : P Unit} {rest : Nat → Int → P Unit}
    (hlead : Contract (deadBoard.bench outputsOnly) X lead (Gives S))
    (hfail : Contract (deadBoard.bench outputsOnly) (fun _ => True) (fun _ => fail) Anyhow)
    (hrest : ∀ w, Contract (deadBoard.bench outputsOnly) (Outs S) (fun m => rest m w) Anyhow)
    (fuel : Nat) {g : Gpio} (hg : X g) :
    Drives (lead fuel >>= fun r => if r < 0 then fail else awaitInit fuel >>= rest fuel) g := by
  refine Bench.allowed_bind (Bench.allowed_mono (hlead.allowed fuel g hg) fun r g1 h1 => ?_)
  show Drives _ g1
  by_cases hr : r < 0
  · rw [if_pos hr]
    exact hfail.allowed fuel g1 trivial
  · rw [if_neg hr]
    exact Bench.allowed_bind (Bench.allowed_mono (allowed_awaitInit fuel (h1 (Int.not_lt.1 hr)))
      fun w g2 h2 => (hrest w).allowed fuel g2 h2)

theorem drives_of_contract {p : Nat → P Unit}
    (h : Contract (deadBoard.bench outputsOnly) (fun _ => True) p Anyhow) (fuel : Nat) (g : Gpio) :
    Drives (p fuel) g := h.allowed fuel g trivial

theorem drives_sm (f : ProgFn) (data : Mem) (size : Nat) (pm : ProgMode) (fuel : Nat) (g : Gpio) :
    Drives (discard (f.prog b fuel data size pm)) g := by
  cases pm with
  | pr => exact drives_of_contract (contract_discard (contract_prog_pr f data size)) fuel g
  | normal =>
    rw [sm_normal_parts]
    exact drives_awaitInit (contract_smLead f size) (contract_discard (keeps_progEnd _ _))
      (fun w => contract_discard (contract_smRest f data size w)) fuel (X := fun _ => True) trivial

/-- After SET_OUTPUT, CFSEL is an output if its function was 0 or 1. -/
theorem cfsel_ready {g : Gpio} (h : MaskReady b (.progInit .normal) g) :
    Outs (fun _ => False) g ∧
    (b = .mk2 → outputsOnly.allows (.set (rpPin rpCfsel)) (g.setOutput rpCfsel)) := by
  refine ⟨fun _ hq => hq.elim, fun hb => within_pin ?_⟩
  unfold Gpio.isOut
  rw [Gpio.fn_setOutput, if_pos rfl]
  rcases h hb with h0 | h1
  · rw [h0]; rfl
  · rw [h1]; rfl

theorem drives_progInit (pm : ProgMode) (fuel : Nat) (g : Gpio) (h : MaskReady b (.progInit pm) g) :
    Drives (discard (ficProgInit b fuel pm)) g := by
  cases pm with
  | pr =>
    have hpr : Contract (deadBoard.bench outputsOnly) (MaskReady b (.progInit .pr))
        (fun m => ficProgInit b m .pr) (Gives (ResetPins fun _ => False)) :=
      contract_ficProgInit_pr fun _ => cfsel_ready
    exact (contract_discard (contract_mono hpr (fun _ h => h) fun _ _ _ => trivial)).allowed fuel g h
  | normal =>
    have hlead : Contract (deadBoard.bench outputsOnly) (MaskReady b (.progInit .normal))
        (fun m => progLead b m) (Gives (ResetPins fun _ => False)) :=
      contract_progLead fun _ => cfsel_ready
    rw [progInit_normal_eq]
    exact drives_awaitInit hlead (contract_ret fun _ _ => trivial)
      (fun w => contract_if (fun _ => contract_ret fun _ _ => trivial) fun _ =>
      contract_discard (Keeps.anyhow keeps_doneTest)) fuel h

theorem drives_write (addr data : BitVec 16) (fuel : Nat) (g : Gpio) :
    Drives (discard (ficWrite .mk2 fuel addr data)) g := by
  refine drives_of_contract (contract_discard (contract_ficWrite addr data fun g hg => hg.within ?_)) fuel g
  have hmask : ∀ p, p < 32 →
      (rpPin (Board.rpRreq .mk2) ||| rpPin (Board.rpRstb .mk2) |||
      Board.commDatabusMask .mk2).getLsbD p = true → commPin .mk2 p = true := by decide
  exact hmask

theorem drives_call (c : Call) (fuel : Nat) (g : Gpio) (h : MaskReady b c g) :
    Drives (c.prog b fuel) g := by
  cases c with
  | commReset => exact drives_of_contract (contract_discard contract_ficCommReset) fuel g
  | write addr data =>
    obtain rfl : b = .mk2 := h
    exact drives_write addr data fuel g
  | read addr => exact drives_of_contract (contract_discard (contract_ficRead addr)) fuel g
  | hlsSend data size => exact drives_of_contract (contract_discard (contract_ficHlsSend data size)) fuel g
  | hlsReceive buf size =>
      exact drives_of_contract (contract_discard (contract_ficHlsReceive buf size)) fuel g
  | hlsWrite data size addr ctrl =>
      exact drives_of_contract (contract_discard (contract_ficHlsWrite data size addr ctrl)) fuel g
  | hlsRead buf size addr ctrl =>
      exact drives_of_contract (contract_discard (contract_ficHlsRead buf size addr ctrl)) fuel g
  | hlsDdrWrite data size addr =>
      exact drives_of_contract (contract_discard (contract_ficHlsWrite data size addr _)) fuel g
  | hlsDdrRead buf size addr =>
      exact drives_of_contract (contract_discard (contract_ficHlsRead buf size addr _)) fuel g
  | hlsDdrDebug buf size addr =>
      exact drives_of_contract (contract_discard (contract_ficHlsDdrDebug buf size addr)) fuel g
  | hlsStart => exact drives_of_contract (contract_discard (contract_hlsCommand .hlsStart)) fuel g
  | hlsReset => exact drives_of_contract (contract_discard (contract_hlsCommand .hlsReset)) fuel g
  | progInit pm => exact drives_progInit pm fuel g h
  | progSm8 data size pm => exact drives_sm .sm8 data size pm fuel g
  | progSm16 data size pm => exact drives_sm .sm16 data size pm fuel g
  | progSm8Fast data size pm => exact drives_sm .sm8Fast data size pm fuel g
  | progSm16Fast data size pm => exact drives_sm .sm16Fast data size pm fuel g

end

/-- `fic_done` and `fic_power` write no mask. -/
theorem drives_readPin (p : Nat) (g : Gpio) : Drives (discard (do
    issue (.setInput p)
    let v ← issue .get
    if v &&& rpPin p != 0#32 then ret 1 else ret 0 : P Int)) g := by
  have hread : Contract (deadBoard.bench outputsOnly) (fun _ => True) (fun _ => (do
      issue (.setInput p)
      let v ← issue .get
      if v &&& rpPin p != 0#32 then ret 1 else ret 0 : P Int)) Anyhow :=
    contract_bind (contract_call (Q := fun _ _ => True) (fun _ _ => trivial) fun _ _ _ => trivial) fun _ =>
      contract_bind (contract_call (Q := fun _ _ => True) (fun _ _ => trivial) fun _ _ _ =>
        trivial) fun _ =>
      contract_if (fun _ => contract_ret fun _ _ => trivial) fun _ => contract_ret fun _ _ => trivial
  exact drives_of_contract (contract_discard hread) 0 g

theorem session_drives {D : Type} {dev : Device D} {x : P Unit × World D}
    (h : Session b dev (MaskReady b) x) : Drives x.1 x.2.gpio := by
  induction h with
  | init s => trivial
  | call c fuel s _ hc _ => exact drives_call c fuel s.gpio hc
  | done s _ _ => exact drives_readPin rpDone s.gpio
  | power s _ _ => exact drives_readPin rpPwok s.gpio
  | step x y _ hs ih => exact drives_run ih (.single hs)

/-! ## The calls that are not -/

/-- CFSEL in an alternate function stays in one. -/
theorem progInit_undriven {s : World Unit} {pm : ProgMode} (h : ¬ MaskReady .mk2 (.progInit pm) s.gpio) :
    ∃ y, (sys passive).Run ((Call.progInit pm).prog .mk2 1, s) y ∧ ¬ NextDriven y := by
  let s1 := s.touch passive (s.gpio.setOutput rpCfsel)
  have hact : (sys passive).act (.setOutput rpCfsel) s () s1 := rfl
  have hrun : (sys passive).Run ((Call.progInit pm).prog .mk2 1, s) (_, s1) :=
    Relation.ReflTransGen.refl.tail (.act hact)
  refine ⟨_, hrun, fun hn => h fun _ => ?_⟩
  have hout : s1.gpio.isOut rpCfsel = true :=
    hn (.set (rpPin rpCfsel)) _ rfl rpCfsel (by decide) (by decide)
  have hfn : s.gpio.fn rpCfsel ||| 1#3 = 1#3 := by
    have hset : (s.gpio.setOutput rpCfsel).isOut rpCfsel = true := hout
    unfold Gpio.isOut at hset
    rwa [Gpio.fn_setOutput, if_pos rfl, beq_iff_eq] at hset
  generalize s.gpio.fn rpCfsel = f at hfn ⊢
  revert f
  decide

/-- Pins CD4 and FACK are inputs. -/
def DataFree (g : Gpio) : Prop := g.Input 12 ∧ g.Input 20

theorem dataFree_pins {o : Op} {g : Gpio} (ho : Outputs (fun p => p ≠ 12 ∧ p ≠ 20) o)
    (h : DataFree g) : DataFree (o.pins g) :=
  ⟨input_pins ho (fun hp => hp.1 rfl) h.1, input_pins ho (fun hp => hp.2 rfl) h.2⟩

theorem passive_readsLatch : passive.ReadsLatch := fun _ _ _ _ _ => rfl

/-- FACK may read high or low. -/
theorem passive_fack {g : Gpio} (h : DataFree g) (up : Bool) :
    ∃ v, passive.level g () v ∧ getPin v 20 = if up then 1#32 else 0#32 := by
  have hfree : g.isOut 20 = false := isOut_of_input h.2
  refine ⟨ofBits (fun p => if p = 20 then up else g.lat p) 32, fun p hp ho => ?_, ?_⟩
  · have hne : p ≠ 20 := by
      rintro rfl
      rw [hfree] at ho
      cases ho
    rw [getLsbD_ofBits, decide_eq_true hp, Bool.true_and, if_neg hne]
  · rw [getPin_eq _ (by decide), getLsbD_ofBits, if_pos rfl, decide_eq_true (by decide), Bool.true_and]

section
variable {s : World Unit}

/-- An answer of a step that leaves CD4 and FACK inputs. -/
def FreeOk (r : Int) (t : World Unit) : Prop := ¬ r < 0 ∧ DataFree t.gpio

theorem can_checkFree {p k : P Int} (h : can (sys passive) FreeOk p s)
    (hk : ∀ t : World Unit, DataFree t.gpio → can (sys passive) FreeOk k t) :
    can (sys passive) FreeOk (check p k) s :=
  can_checkOr (can_mono h fun _ t ht => ⟨ht.1, hk t ht.2⟩)

theorem can_setFree (m : BitVec 32) (h : DataFree s.gpio) : can (sys passive) FreeOk (ficSetGpio 1 m) s :=
  can_ficSetGpio 0 passive_readsLatch m ⟨by decide, dataFree_pins (o := .set m) trivial h⟩

theorem can_clrFree (m : BitVec 32) (h : DataFree s.gpio) : can (sys passive) FreeOk (ficClrGpio 1 m) s :=
  can_ficClrGpio 0 passive_readsLatch m ⟨by decide, dataFree_pins (o := .clr m) trivial h⟩

theorem can_ficCommSend (bus : BitVec 32) (h : DataFree s.gpio) :
    can (sys passive) FreeOk (ficCommSend .mk1 1 bus) s := by
  have hup : ∀ t : World Unit, DataFree t.gpio → can (sys passive) FreeOk (ficCommWaitFackUp .mk1 1) t := by
    intro t ht
    obtain ⟨v, hv, hpin⟩ := passive_fack ht true
    refine can_pollTimed 0 v hv ?_ ⟨by decide, ht⟩
    show (getPin v 20 == 0#32) = false
    rw [hpin]
    rfl
  have hdown : ∀ t : World Unit, DataFree t.gpio →
      can (sys passive) FreeOk (ficCommWaitFackDown .mk1 1) t := by
    intro t ht
    obtain ⟨v, hv, hpin⟩ := passive_fack ht false
    refine can_pollTimed 0 v hv ?_ ⟨by decide, ht⟩
    show (getPin v 20 == 1#32) = false
    rw [hpin]
    rfl
  exact can_checkFree (can_clrFree _ h) fun _ h1 => can_checkFree (can_setFree _ h1) fun t2 h2 =>
    can_checkFree (hup t2 h2) fun _ h3 =>
    can_checkFree (can_clrFree _ h3) fun t4 h4 => can_checkFree (hdown t4 h4) fun _ h5 => ⟨by decide, h5⟩

theorem can_pinsFree {α : Type} {Q : α → World Unit → Prop} {o : Op} {k : Ans o → P α} (a : Ans o)
    (hact : (sys passive).act o s a (s.touch passive (o.pins s.gpio)))
    (ho : Outputs (fun p => p ≠ 12 ∧ p ≠ 20) o) (h : DataFree s.gpio)
    (hk : ∀ t : World Unit, DataFree t.gpio → can (sys passive) Q (k a) t) :
    can (sys passive) Q (issue o >>= k) s :=
  can_issue a hact (hk _ (dataFree_pins ho h))

theorem commPin_apart {i : Nat} (h : commPin .mk1 i = true) : i ≠ 12 ∧ i ≠ 20 := by
  refine ⟨?_, ?_⟩ <;> (rintro rfl; revert h; decide)

theorem can_setupRound (i : Nat) (h : DataFree s.gpio) : can (sys passive) FreeOk (do
    when (i == Board.mk1.rpFack || i == Board.mk1.rpFreq) (issue (.setInput i))
    if commPin .mk1 i then do
      setInputOutput i
      check (ficClrGpio 1 (rpPin i)) (ret 0)
    else ret 0) s := by
  have hrest : ∀ t : World Unit, DataFree t.gpio → can (sys passive) FreeOk (if commPin .mk1 i then do
      setInputOutput i
      check (ficClrGpio 1 (rpPin i)) (ret 0)
    else ret 0) t := by
    intro t ht
    split
    · next hc =>
      exact can_pinsFree (o := .setInput i) () rfl trivial ht fun u hu =>
        can_pinsFree (o := .setOutput i) () rfl (commPin_apart hc) hu fun v hv =>
        can_checkFree (can_clrFree _ hv) fun _ hw => ⟨by decide, hw⟩
    · exact ⟨by decide, ht⟩
  cases hw : i == Board.mk1.rpFack || i == Board.mk1.rpFreq with
  | true => exact can_pinsFree (o := .setInput i) () rfl trivial h hrest
  | false => exact hrest s h

theorem can_setAllInput : can (sys passive) (fun _ t => DataFree t.gpio) setAllInput s := by
  refine can_issue (o := .clearSel 0) () rfl <|
    can_issue (o := .clearSel 1) () rfl ⟨_, (), _, .refl, rfl, ?_⟩
  exact ⟨s.gpio.fn_allInput (by omega), s.gpio.fn_allInput (by omega)⟩

theorem can_ficCommSetup : can (sys passive) FreeOk (ficCommSetup .mk1 1) s := by
  refine can_bind (can_mono can_setAllInput fun _ t ht => ?_)
  exact can_forEach (R := FreeOk) (fun _ t => DataFree t.gpio) 0 _ (fun i t ht => can_setupRound i ht)
    (fun u hu => ⟨by decide, hu⟩) ht

theorem can_forDoFree {body : Nat → P Unit} (lo m : Nat)
    (hb : ∀ i t, lo ≤ i → i < lo + m → DataFree t.gpio →
      can (sys passive) (fun _ u => DataFree u.gpio) (body i) t) (h : DataFree s.gpio) :
    can (sys passive) (fun _ u => DataFree u.gpio) (forDo body lo m) s := by
  induction m generalizing lo s with
  | zero => exact h
  | succ m ih =>
    refine can_bind (can_mono (hb lo s (Nat.le_refl _) (by omega) h) fun _ t ht =>
      ih (lo + 1) (fun i u h1 h2 => hb i u (by omega) (by omega)) ht)

/-- `fic_write` on mk1 up to the end of its last word. -/
def writeLead (fuel : Nat) (addr data : BitVec 16) : P Int :=
  check (ficCommSetup .mk1 fuel) <| do
  ficCommPortdir .mk1 .snd
  check (ficSetGpio fuel (rpPin (Board.rpRreq .mk1))) <|
    check (ficCommSend .mk1 fuel (RasioCmd.write.code <<< Board.rpDataLow .mk1)) <|
    check (ficCommSetaddr .mk1 fuel addr) <|
    check (ficCommSend .mk1 fuel (((data.setWidth 32 &&& 0xf0#32) >>> 4) <<< Board.rpDataLow .mk1)) <|
    ficCommSend .mk1 fuel ((data.setWidth 32 &&& 0x0f#32) <<< Board.rpDataLow .mk1)

theorem can_writeLead (addr data : BitVec 16) : can (sys passive) FreeOk (writeLead 1 addr data) s := by
  refine can_checkFree can_ficCommSetup fun t ht =>
    can_bind (can_mono (Q := fun _ u => DataFree u.gpio) ?_ fun _ u hu => ?_)
  · refine can_forDoFree _ _ (fun i u h1 h2 hu => ?_) ht
    have hi : commPin .mk1 i = true := commPin_iff.2 (.inr (.inr (dataPin_iff.2 ⟨h1, h2⟩)))
    exact can_pinsFree (o := .setInput i) () rfl trivial hu fun v hv =>
      ⟨_, (), _, .refl, rfl, dataFree_pins (o := .setOutput i) (commPin_apart hi) hv⟩
  · refine can_checkFree (can_setFree _ hu) fun _ h1 => ?_
    refine can_checkFree (can_ficCommSend _ h1) fun v hv => ?_
    -- the four words of `fic_comm_setaddr`
    have haddr : can (sys passive) FreeOk (ficCommSetaddr .mk1 1 addr) v := by
      refine can_checkFree (can_ficCommSend _ hv) fun _ h2 => ?_
      refine can_checkFree (can_ficCommSend _ h2) fun _ h3 => ?_
      refine can_checkFree (can_ficCommSend _ h3) fun _ h4 => ?_
      exact can_checkFree (can_ficCommSend _ h4) fun _ h5 => ⟨by decide, h5⟩
    refine can_checkFree haddr fun _ h6 => ?_
    exact can_checkFree (can_ficCommSend _ h6) fun _ h7 => can_ficCommSend _ h7

/-- The last mask has CD4, which is an input. -/
theorem write_undriven (addr data : BitVec 16) (s : World Unit) :
    ∃ y, (sys passive).Run ((Call.write addr data).prog .mk1 1, s) y ∧ ¬ NextDriven y := by
  obtain ⟨r, t, hrun, hr, h12, -⟩ := can_run (can_writeLead (s := s) addr data)
  have hparts : (Call.write addr data).prog .mk1 1 = writeLead 1 addr data >>=
      fun r => if r < 0 then ret () else
      discard (check (ficClrGpio 1 (rpPin (Board.rpRreq .mk1) ||| rpPin (Board.rpRstb .mk1) |||
      Board.commDatabusMask .mk1)) <|
        check (ficCommWaitFreqDown .mk1 1) <| do
        setAllInput
        ret 0) := by
    have hcheck : ∀ (p q : P Int) (g : Int → P Unit), check p q >>= g = p >>=
        fun r => if r < 0 then g (-1) else q >>= g :=
      fun p q g => checkOr_bind (-1) p q g
    have hzero : ∀ p : P Int, check (ret 0) p = p := fun _ => rfl
    have hneg : (-1 : Int) < 0 := by decide
    show discard (ficWrite .mk1 1 addr data) = _
    unfold writeLead ficWrite discard
    simp only [check_check, hzero, hcheck, bind_assoc, if_pos hneg]
  rw [hparts]
  have hall := Sys.run_bind (fun r => if r < 0 then ret () else
      discard (check (ficClrGpio 1 (rpPin (Board.rpRreq .mk1) ||| rpPin (Board.rpRstb .mk1) |||
        Board.commDatabusMask .mk1)) <|
        check (ficCommWaitFreqDown .mk1 1) <| do
        setAllInput
        ret 0)) hrun
  rw [ret_bind, if_neg hr] at hall
  refine ⟨_, hall, fun hn => ?_⟩
  have hout : t.gpio.isOut 12 = true := hn (.clr _) _ rfl 12 (by decide) (by decide)
  rw [isOut_of_input h12] at hout
  cases hout

end

/-! ## The result -/

/-- **What the library writes is driven**: at every moment of a session whose calls are ready; and a
call that is not ready, on a device whose undriven pins may read anything, can come to a mask that is
not. -/
theorem masks_driven_iff (b : Board) :
    (∀ (D : Type) (dev : Device D) (x : P Unit × World D), Session b dev (MaskReady b) x → NextDriven x) ∧
    ∀ (c : Call) (s : World Unit), (∀ fuel y, (sys passive).Run (c.prog b fuel, s) y → NextDriven y) ↔
      MaskReady b c s.gpio := by
  refine ⟨fun D dev x hx => (session_drives hx).next, fun c s => ⟨fun hall => ?_, fun hc fuel y hy => ?_⟩⟩
  · by_contra hnot
    have hbad : ∃ y, (sys passive).Run (c.prog b 1, s) y ∧ ¬ NextDriven y := by
      cases c with
      | write addr data =>
        cases b with
        | mk1 => exact write_undriven addr data s
        | mk2 => exact absurd rfl hnot
      | progInit pm =>
        cases b with
        | mk1 => exact absurd (fun hb => nomatch hb) hnot
        | mk2 => exact progInit_undriven hnot
      | _ => exact absurd trivial hnot
    obtain ⟨y, hy, hn⟩ := hbad
    exact hn (hall 1 y hy)
  · obtain ⟨p, t⟩ := y
    exact Drives.next (x := (p, t)) (drives_run (drives_call c fuel s.gpio hc) hy)

theorem Session.run {D : Type} {dev : Device D} {ok : Call → Gpio → Prop} {x y : P Unit × World D}
    (hx : Session b dev ok x) (h : (sys dev).Run x y) : Session b dev ok y := by
  induction h with
  | refl => exact hx
  | tail _ hb ih => exact .step _ _ ih hb

/-- A session that writes a mask with undriven pins: `fic_write` on mk1. -/
theorem write_masks_undriven :
    ¬ ∀ (b : Board) (x : P Unit × World Unit), Session b passive (fun _ _ => True) x → NextDriven x := by
  intro hall
  obtain ⟨y, hy, hn⟩ := write_undriven 0x1000#16 0x5a#16 World.start
  exact hn (hall .mk1 y ((Session.call (.write 0x1000#16 0x5a#16) 1 World.start (.init _) trivial).run hy))

end Libfic2
