import Libfic2.ProgRounds

/-!
# Which operations the library issues

`Works A` allows any operation on the pins but SET_OUTPUT outside `A`, and in PROG_STAT
only the progress counter.  The register and HLS functions make outputs of the pins of
`commPin` (RREQ, RSTB, the data bus), the programming functions up to their end of
`progPin` (PROG_B, CCLK, CSI_B, RDWR_B, the configuration data pins, and CFSEL on mk2):
`works_ficCommSetup` .. `works_body`, with `signals_ficCommSend` and the like.  `Outputs A` is about
SET_OUTPUT alone.
-/

namespace Libfic2

open Driver Prog

/-- SET_OUTPUT is issued on pins of `A` only. -/
def Outputs (A : Nat → Prop) : Op → Prop
  | .setOutput p => A p
  | _ => True

variable {A : Nat → Prop}

/-- Any operation on the pins, SET_OUTPUT on pins of `A` only, and counting progress. -/
def Works (A : Nat → Prop) : Op → Prop
  | .setOutput p => A p
  | .clock => False
  | .stat f => ∃ n, f = fun st => { st with txSize := st.txSize + n }
  | _ => True

instance : Signals (Works A) := ⟨fun _ => trivial, fun _ => trivial, trivial, trivial⟩

theorem outs_of_works {α : Type} {p : P α} (h : Ops (Works A) p) : Ops (Outputs A) p := by
  refine ops_mono h fun o ho => ?_
  cases o with
  | setOutput q => exact ho
  | _ => trivial

variable (b : Board) (fuel : Nat)

/-! ## Waiting and setting pins -/

theorem works_issue {o : Op} (h : Works A o) : Ops (Works A) (issue o) := ops_call o h
theorem works_setAllInput : Ops (Works A) setAllInput := ops_setAllInput fun _ => trivial

theorem works_setInputOutput {p : Nat} (h : A p) : Ops (Works A) (setInputOutput p) :=
  ops_bind (works_issue trivial) fun _ => works_issue h

/-! ## Register access -/

section
variable (hA : ∀ p, commPin b p = true → A p)
include hA

theorem works_ficCommSetup : Ops (Works A) (ficCommSetup b fuel) := by
  refine ops_bind works_setAllInput fun _ => ops_forEach _ _ fun i _ _ => ?_
  refine ops_bind (ops_when fun _ => works_issue trivial) fun _ => ?_
  split
  · next hi =>
    exact ops_bind (works_setInputOutput (hA i hi)) fun _ => ops_check (signals_ficClrGpio _ _) trivial
  · trivial

theorem commPin_data {i : Nat} (h1 : b.rpDataLow ≤ i) (h2 : i < b.rpDataLow + b.width) : A i := by
  apply hA
  unfold commPin
  have : i ≤ b.rpDataTop := by cases b <;> simp at h1 h2 ⊢ <;> omega
  simp only [h1, this, decide_true, Bool.and_self, Bool.or_true]

theorem works_ficCommPortdir (dir : CommPortDir) : Ops (Works A) (ficCommPortdir b dir) := by
  cases dir with
  | snd => exact ops_forDo _ _ fun i h1 h2 => works_setInputOutput (commPin_data b hA h1 h2)
  | rcv => exact ops_forDo _ _ fun i _ _ => works_issue trivial

theorem works_ficCommReset : Ops (Works A) (ficCommReset b fuel) :=
  ops_check (works_ficCommSetup b fuel hA) <| ops_check (signals_ficClrGpio _ _) <|
    ops_check (signals_ficSetGpio _ _) trivial

omit hA in
theorem works_release (m : BitVec 32) {α : Type} (a : α) (e : α) :
    Ops (Works A) (checkOr e (ficClrGpio fuel m) <| checkOr e (ficCommWaitFreqDown b fuel) <| do
      setAllInput
      ret a) :=
  ops_checkOr (signals_ficClrGpio _ _) <| ops_checkOr (signals_pollTimed _ _) <|
    ops_bind works_setAllInput fun _ => trivial

theorem works_ficWrite (addr data : BitVec 16) : Ops (Works A) (ficWrite b fuel addr data) := by
  refine ops_check (works_ficCommSetup b fuel hA) <| ops_bind (works_ficCommPortdir b hA _) fun _ =>
    ops_check (signals_ficSetGpio _ _) <| ops_check (signals_ficCommSend _ _ _) <|
    ops_check (signals_ficCommSetaddr _ _ _) <| ops_check ?_ (works_release b fuel _ _ _)
  cases b with
  | mk1 => exact ops_check (signals_ficCommSend _ _ _) <| ops_check (signals_ficCommSend _ _ _) trivial
  | mk2 => exact ops_check (signals_ficCommSend _ _ _) trivial

omit hA in
theorem ops_checkVal {Pr : Op → Prop} {p : P Int} {k : Int → P Int} (hp : Ops Pr p)
    (hk : ∀ i, Ops Pr (k i)) : Ops Pr (checkVal p k) := by
  refine ops_bind hp fun i => ?_
  split
  · trivial
  · exact hk i

theorem works_ficRead (addr : BitVec 16) : Ops (Works A) (ficRead b fuel addr) := by
  refine ops_check (works_ficCommSetup b fuel hA) <| ops_bind (works_ficCommPortdir b hA _) fun _ =>
    ops_check (signals_ficSetGpio _ _) <| ops_check (signals_ficCommSend _ _ _) <|
    ops_check (signals_ficCommSetaddr _ _ _) <| ops_bind (works_ficCommPortdir b hA _) fun _ => ?_
  cases b with
  | mk1 =>
    exact ops_checkVal (signals_ficCommReceive _ _) fun _ =>
      ops_checkVal (signals_ficCommReceive _ _) fun _ =>
      works_release _ fuel _ _ _
  | mk2 => exact ops_checkVal (signals_ficCommReceive _ _) fun _ => works_release _ fuel _ _ _

/-! ## HLS transfers -/

theorem works_ficHlsCommInitiate (cmd : RasioCmd) : Ops (Works A) (ficHlsCommInitiate b fuel cmd) := by
  refine ops_check (works_ficCommSetup b fuel hA) ?_
  refine ops_bind (works_ficCommPortdir b hA _) fun _ => ?_
  refine ops_check (signals_ficSetGpio _ _) ?_
  refine ops_check (signals_ficCommSend _ _ _) ?_
  refine ops_check (signals_ficCommSetaddr _ _ _) ?_
  exact ops_bind (ops_when fun _ => works_ficCommPortdir b hA _) fun _ => trivial

omit hA in
theorem works_ficHlsCommTerminate : Ops (Works A) (ficHlsCommTerminate b fuel) :=
  works_release b fuel _ _ _

omit hA in
/-- The end of the receiving functions. -/
theorem works_receiveEnd (r : Int × Mem) :
    Ops (Works A) (if r.1 < 0 then ret (-1, r.2) else
      checkOr (-1, r.2) (ficHlsCommTerminate b fuel) (ret (0, r.2)) : P (Int × Mem)) := by
  split
  · trivial
  · exact ops_checkOr (works_ficHlsCommTerminate b fuel) trivial

theorem works_ficHlsSend (data : Mem) (size : Nat) : Ops (Works A) (ficHlsSend b fuel data size) :=
  ops_check (works_ficHlsCommInitiate b fuel hA _) <| ops_check (signals_ficHlsSendBytes b fuel _ _) <|
    ops_check (works_ficHlsCommTerminate b fuel) trivial

theorem works_ficHlsReceive (buf : Mem) (size : Nat) :
    Ops (Works A) (ficHlsReceive b fuel buf size) :=
  ops_checkOr (works_ficHlsCommInitiate b fuel hA _) <|
    ops_bind (signals_ficHlsReceiveBytes b fuel _ _) (works_receiveEnd b fuel)

theorem works_ficHlsWrite (data : Mem) (size : Nat) (addr ctrl : BitVec 32) :
    Ops (Works A) (ficHlsWrite b fuel data size addr ctrl) :=
  ops_check (works_ficHlsCommInitiate b fuel hA _) <| ops_check (signals_ficHlsSendBytes b fuel _ _) <|
    ops_check (signals_ficHlsSendBytes b fuel _ _) <| ops_check (works_ficHlsCommTerminate b fuel) trivial

theorem works_ficHlsRead (buf : Mem) (size : Nat) (addr ctrl : BitVec 32) :
    Ops (Works A) (ficHlsRead b fuel buf size addr ctrl) :=
  ops_checkOr (works_ficHlsSend b fuel hA _ _) <| ops_checkOr (works_ficHlsCommInitiate b fuel hA _) <|
    ops_bind (signals_ficHlsReceiveBytes b fuel _ _) (works_receiveEnd b fuel)

theorem works_ficHlsDdrDebug (buf : Mem) (size : Nat) (addr : BitVec 32) :
    Ops (Works A) (ficHlsDdrDebug b fuel buf size addr) := by
  refine ops_bind (works_ficHlsSend b fuel hA _ _) fun _ =>
    ops_bind (works_ficHlsReceive b fuel hA _ _) fun r => ?_
  split <;> trivial

theorem works_hlsCommand (cmd : RasioCmd) : Ops (Works A) (hlsCommand b fuel cmd) :=
  ops_check (works_ficCommSetup b fuel hA) <| ops_bind (works_ficCommPortdir b hA _) fun _ =>
    ops_check (signals_ficSetGpio _ _) <| ops_check (signals_ficCommSend _ _ _) <|
      works_release b fuel _ _ _

end

/-! ## Configuration -/

/-- The pins the programming functions make outputs. -/
def progPin (p : Nat) : Bool := smHighPin b p || smLowPin 16 p

/-- `Pr` allows all operations on the pins, SET_OUTPUT on pins of `A`. -/
class PinWork (A : Nat → Prop) (Pr : Op → Prop) : Prop extends Signals Pr where
  setInput : ∀ p, Pr (.setInput p)
  clearSel : ∀ r, Pr (.clearSel r)
  setOutput : ∀ p, A p → Pr (.setOutput p)

instance : PinWork A (Works A) := ⟨fun _ => trivial, fun _ => trivial, fun _ h => h⟩

section
variable {Pr : Op → Prop} [PinWork A Pr] (hA : ∀ p, progPin b p = true → A p)

theorem pinWork_setInputOutput {p : Nat} (h : A p) : Ops Pr (setInputOutput p) :=
  ops_bind (ops_call _ (PinWork.setInput A p)) fun _ => ops_call _ (PinWork.setOutput p h)

include hA

theorem pinWork_ficProgInitSm {n : Nat} (hn : n ≤ 16) : Ops Pr (ficProgInitSm b fuel n) := by
  have hsel : ∀ r, Ops Pr (issue (.clearSel r)) := fun r => ops_call _ (PinWork.clearSel A r)
  have : Signals Pr := PinWork.toSignals A
  refine ops_bind (ops_bind (hsel 0) fun _ => ops_bind (hsel 1) fun _ => hsel 2) fun _ =>
    ops_check (ops_forEach _ _ fun i _ _ => ?_) ?_
  rotate_left
  · cases b with
    | mk1 => trivial
    | mk2 =>
        exact ops_bind (ops_call _ (PinWork.setOutput rpCfsel (hA _ (by decide)))) fun _ =>
          ops_check (signals_ficSetGpio _ _) trivial
  refine ops_bind (ops_when fun _ => ops_call _ (PinWork.setInput A i)) fun _ => ops_check ?_ ?_
  · split
    · next hi =>
      exact ops_bind (pinWork_setInputOutput (hA i (by unfold progPin; rw [hi]; rfl))) fun _ =>
        ops_check (signals_ficSetGpio _ _) trivial
    · trivial
  · split
    · next hi =>
      refine ops_bind (pinWork_setInputOutput (hA i ?_)) fun _ => ops_check (signals_ficClrGpio _ _) trivial
      unfold smLowPin at hi
      unfold progPin smLowPin
      simp only [Bool.or_eq_true, Bool.and_eq_true, decide_eq_true_eq] at hi ⊢
      exact .inr (hi.imp_right fun h => ⟨h.1, by simp only [rpCd] at h ⊢; omega⟩)
    · trivial

theorem pinWork_ficProgInit (pm : ProgMode) : Ops Pr (ficProgInit b fuel pm) := by
  have : Signals Pr := PinWork.toSignals A
  have high : ∀ p, smHighPin b p = true → A p := fun p hp => hA p (by unfold progPin; rw [hp]; rfl)
  have h5 : A rpProgB := high _ (by cases b <;> decide)
  have h26 : A rpCsiB := high _ (by cases b <;> decide)
  have h27 : A rpRdwrB := high _ (by cases b <;> decide)
  refine ops_check ?_ <| ops_bind (pinWork_setInputOutput h5) fun _ =>
    ops_bind (pinWork_setInputOutput h26) fun _ => ops_bind (pinWork_setInputOutput h27) fun _ =>
    ops_check (signals_ficSetGpio _ _) ?_
  · cases b with
    | mk1 => trivial
    | mk2 =>
      exact ops_bind (ops_call _ (PinWork.setOutput rpCfsel (high _ (by decide)))) fun _ =>
        ops_check (signals_ficSetGpio _ _) trivial
  · split
    · exact ops_check (signals_ficClrGpio _ _) trivial
    · refine ops_check (signals_ficSetGpio _ _) <| ops_check (signals_ficClrGpio _ _) <|
        ops_check (signals_ficSetGpio _ _) <| ops_check ?_ <| ops_bind signals_get fun v => ?_
      · refine ops_loop (ops_bind signals_get fun v => ?_) _
        split
        · exact ops_bind signals_get fun _ => trivial
        · trivial
      · split <;> trivial

theorem pinWork_progSetup {n : Nat} (hn : n ≤ 16) (pm : ProgMode) : Ops Pr (progSetup b fuel n pm) := by
  have : Signals Pr := PinWork.toSignals A
  exact ops_check (pinWork_ficProgInitSm b fuel hA hn) <| ops_check (pinWork_ficProgInit b fuel hA pm) <|
    ops_check (signals_ficClrGpio _ _) trivial

end

theorem works_body (f : ProgFn) (data : Mem) (size : Nat) : Ops (Works A) (f.body fuel data size) :=
  ops_body ⟨trivial, trivial, fun _ _ => trivial, fun _ _ => trivial⟩ trivial (fun n => ⟨n, rfl⟩) data f
    (fun _ _ _ => trivial) size

/-! ## Beginning and end -/

theorem outs_progBegin (smap : ProgSmapMode) (size : Nat) (pm : ProgMode) :
    Ops (Outputs A) (progBegin smap size pm) :=
  ops_progBegin trivial (fun _ => trivial) smap size pm

theorem outs_progEnd (st : ProgStatus) (n : Nat) : Ops (Outputs A) (progEnd st n) :=
  ops_progEnd trivial (fun _ => trivial) (outs_of_works works_setAllInput) st n

theorem outs_progFinish {test : P Int} (ht : Ops (Works A) test) (mask : BitVec 32) (pm : ProgMode)
    (r : Option Nat) : Ops (Outputs A) (progFinish fuel test mask pm r) := by
  cases r with
  | none => exact outs_progEnd _ _
  | some i =>
    refine ops_bind (outs_of_works (ops_check ht (signals_progWait _ _ _))) fun w => ?_
    split <;> exact outs_progEnd _ _

end Libfic2
