import Libfic2.HlsFailures
import Libfic2.Strobes

/-!
# Sizes that mk2 does not carry

`_fic_hls_send_bytes` and `_fic_hls_receive_bytes` refuse a size below 2 and an odd one, but the
transaction is open by then, with the command and the address acknowledged, and is not closed.  So a
call with such a size leaves the other side alone only when `fic_comm_setup` fails: `rejected_iff`.
-/

namespace Libfic2

open Driver Prog Sys Line

/-! ## The answer -/

/-- The size of the call is refused; `fic_hls_ddr_debug` does not hand its size on. -/
def HlsCall.Refuses : HlsCall → Prop
  | .send _ size => refused .mk2 size = true
  | .receive size => refused .mk2 size = true
  | .write _ size _ _ => refused .mk2 size = true
  | .read size _ _ => refused .mk2 size = true
  | .ddrDebug _ _ => False

section
variable {ws ws' : List Wait} {l : List Reading}

/-- A refused step is not answered, whatever comes before and after it. -/
theorem not_answered_refused : ¬ AllAnswered (ws ++ ([.refused] ++ ws')) l := by
  unfold AllAnswered
  rw [Wait.afterAll_append]
  cases Wait.afterAll ws l with
  | none => exact Bool.false_ne_true
  | some rest => exact Bool.false_ne_true

theorem HlsCall.Refuses.waits {c : HlsCall} (hc : c.Refuses) : ¬ AllAnswered (c.waits .mk2) l := by
  cases c with
  | send data size =>
    show ¬ AllAnswered (initiateWaits .mk2 .write ++
      (sendBytesWaits .mk2 data size ++ terminateWaits .mk2)) l
    rw [show sendBytesWaits .mk2 data size = [.refused] from if_pos hc]
    exact not_answered_refused
  | receive size =>
    show ¬ AllAnswered (initiateWaits .mk2 .read ++ (receiveBytesWaits .mk2 size ++ terminateWaits .mk2)) l
    rw [show receiveBytesWaits .mk2 size = [.refused] from if_pos hc]
    exact not_answered_refused
  | write data size addr ctrl =>
    show ¬ AllAnswered (initiateWaits .mk2 .write ++ (sendBytesWaits .mk2 (cmdBytes ctrl addr size) 12 ++
      (sendBytesWaits .mk2 data size ++ terminateWaits .mk2))) l
    rw [← List.append_assoc, show sendBytesWaits .mk2 data size = [.refused] from if_pos hc]
    exact not_answered_refused
  | read size addr ctrl =>
    show ¬ AllAnswered (hlsSendWaits .mk2 (cmdBytes ctrl addr size) 12 ++ (initiateWaits .mk2 .read ++
      (receiveBytesWaits .mk2 size ++ terminateWaits .mk2))) l
    rw [← List.append_assoc, show receiveBytesWaits .mk2 size = [.refused] from if_pos hc]
    exact not_answered_refused
  | ddrDebug size addr => exact hc.elim

end

section
variable {fuel : Nat} {l : List Ev} {a : Int × Mem} {buf : Mem}

theorem HlsCall.Refuses.fails {c : HlsCall} (hc : c.Refuses) (he : Ends (c.prog .mk2 fuel buf) l a) :
    a.1 = -1 := by
  have hpair : ∀ {q : P Int} {ws : List Wait}, Polls Ok Err q ws →
      Polls OkPair ErrPair (q >>= fun r => ret (r, buf)) ws := fun hq =>
    polls_answer hq (fun r hr => ⟨(r, buf), rfl, hr⟩) fun r hr => ⟨(r, buf), rfl, hr⟩
  have hpolls : Polls OkPair ErrPair (c.prog .mk2 fuel buf) (c.waits .mk2) := by
    cases c with
    | send data size => exact hpair (polls_ficHlsSend .mk2 fuel data size)
    | receive size => exact polls_ficHlsReceive .mk2 fuel buf size
    | write data size addr ctrl => exact hpair (polls_ficHlsWrite .mk2 fuel data size addr ctrl)
    | read size addr ctrl => exact polls_ficHlsRead .mk2 fuel buf size addr ctrl
    | ddrDebug size addr => exact hc.elim
  rcases hpolls.answered he with ⟨-, hans⟩ | ⟨herr, -⟩
  · exact absurd hans hc.waits
  · exact herr

end

/-! ## The other side -/

/-- In the run `l` the call fails, no word is acknowledged, and RREQ is not left high. -/
structure Rejected (g : Gpio) (l : List Ev) (r : Int) : Prop where
  fails : r = -1
  untouched : ∀ e ∈ ((Line.start (b := .mk2) g).after l).words, e.2 = false
  released : (g.after l).high (Board.rpRreq .mk2) = false

/-- `p` begins with `_fic_hls_comm_initiate`, and ends with it when it fails. -/
def Begins {α : Type} (b : Board) (fuel : Nat) (p : P α) : Prop :=
  ∀ l a, Ends p l a → ∃ cmd r l1 l2, l = l1 ++ l2 ∧
    Ends (ficHlsCommInitiate b fuel cmd) l1 r ∧ (r < 0 → l2 = [])

section
variable {b : Board} {fuel : Nat} {α β : Type} {l : List Ev} {a : Int × Mem} {buf : Mem}

theorem begins_checkOr {e : α} {cmd : RasioCmd} {k : P α} :
    Begins b fuel (checkOr e (ficHlsCommInitiate b fuel cmd) k) := by
  intro l a h
  obtain ⟨r, l1, l2, rfl, h1, h2⟩ := ends_bind.1 h
  refine ⟨cmd, r, l1, l2, rfl, h1, fun hr => ?_⟩
  rw [if_pos hr] at h2
  exact h2.1

/-- Steps after it, which are not taken when it fails. -/
theorem begins_bind {cmd : RasioCmd} {k : P Int} {f : Int → P β} (hf : ∃ c, f (-1) = ret c) :
    Begins b fuel (check (ficHlsCommInitiate b fuel cmd) k >>= f) := by
  intro l c h
  obtain ⟨r0, l0, l3, rfl, h0, h3⟩ := ends_bind.1 h
  obtain ⟨r, l1, l2, rfl, h1, h2⟩ := ends_bind.1 h0
  refine ⟨cmd, r, l1, l2 ++ l3, List.append_assoc .., h1, fun hr => ?_⟩
  rw [if_pos hr] at h2
  obtain ⟨rfl, rfl⟩ := h2
  obtain ⟨c', hc⟩ := hf
  rw [hc] at h3
  exact h3.1

/-- Once set-up has succeeded, a word is acknowledged or RREQ stays up. -/
theorem begins_touches {p : P α} {c : α} (hp : Begins b fuel p) (he : Ends p l c) (g : Gpio) :
    ((∀ e ∈ ((Line.start (b := b) g).after l).words, e.2 = false) ∧ (g.after l).high b.rpRreq = false) ↔
      ¬ AllAnswered (setupWaits b) (readings l) := by
  obtain ⟨cmd, r, l1, l2, rfl, hinit, hend⟩ := hp l c he
  have hpins : ∀ l, ((Line.start (b := b) g).after l).pins = g.after l := fun l => after_pins _ l
  rcases at_ficHlsCommInitiate (s := Line.start g) rfl hinit with ⟨rfl, hw, h⟩ | ⟨hw, ⟨rfl, hpart⟩ | ⟨-, h⟩⟩
  · rw [hend (by decide), List.append_nil] at *
    refine iff_of_true ⟨?_, ?_⟩ ?_
    · rw [h.words]
      exact nofun
    · rw [← hpins]
      exact h.pins
    · have hno := hw []
      rwa [List.append_nil] at hno
  · rw [hend (by decide)] at *
    refine iff_of_false (fun hno => ?_) (not_not.2 (hw []))
    obtain ⟨sent, -, -, -, hrreq⟩ := hpart
    rw [List.append_nil, ← hpins, hrreq] at hno
    exact Bool.noConfusion hno.2
  · refine iff_of_false (fun hno => ?_) (not_not.2 (hw l2))
    -- the command has been acknowledged, and stays in the list
    obtain ⟨ws, hws, -⟩ := after_grows h.up l2
    have hmem : (cmdBits b cmd, true) ∈ ((Line.start (b := b) g).after (l1 ++ l2)).words := by
      rw [line_append, hws, h.words]
      refine List.mem_append_right _ (List.mem_append_left _ (List.mem_reverse.2 ?_))
      exact List.mem_map.2 ⟨_, List.mem_cons_self .., rfl⟩
    exact Bool.noConfusion (hno.1 _ hmem)

/-- **A refused size is rejected before anything reaches the other side** exactly when `fic_comm_setup`
fails. -/
theorem rejected_iff {c : HlsCall} (hc : c.Refuses) (he : Ends (c.prog .mk2 fuel buf) l a) (g : Gpio) :
    Rejected g l a.1 ↔ ¬ AllAnswered (setupWaits .mk2) (readings l) := by
  have hbegins : Begins .mk2 fuel (c.prog .mk2 fuel buf) := by
    cases c with
    | send data size => exact begins_bind ⟨_, rfl⟩
    | receive size => exact begins_checkOr
    | write data size addr ctrl => exact begins_bind ⟨_, rfl⟩
    | read size addr ctrl => exact begins_bind ⟨_, rfl⟩
    | ddrDebug size addr => exact hc.elim
  rw [← begins_touches hbegins he g]
  exact ⟨fun h => ⟨h.untouched, h.released⟩, fun h => ⟨hc.fails he, h.1, h.2⟩⟩

end

/-! ## One byte -/

/-- `fic_hls_write` of one byte. -/
def oneByte : HlsCall := .write (fun _ => 0#8) 1 0#32 0#32

def oneByteTrace : List Ev :=
  (oneByte.prog .mk2 2 fun _ => 0#8).trace (peer followingFack 0) 600 (World.start.gpio, 0)

theorem oneByteTrace_ends : ∃ a, Ends (oneByte.prog .mk2 2 fun _ => 0#8) oneByteTrace a := by
  have hrun : (follow (peer followingFack 0) 600 (oneByte.prog .mk2 2 fun _ => 0#8)
      (World.start.gpio, 0)).1.answer?.isSome = true := by
    decide +kernel
  obtain ⟨a, ha⟩ := Option.isSome_iff_exists.1 hrun
  exact ⟨a, trace_ends ha⟩

theorem rejected_oneByte : ∃ a, Ends (oneByte.prog .mk2 2 fun _ => 0#8) oneByteTrace a ∧
    (Rejected World.start.gpio oneByteTrace a.1 ↔
      ¬ AllAnswered (setupWaits .mk2) (readings oneByteTrace)) := by
  obtain ⟨a, ha⟩ := oneByteTrace_ends
  exact ⟨a, ha, rejected_iff (c := oneByte) rfl ha World.start.gpio⟩

/-- RREQ is left high, and the header has been acknowledged. -/
theorem oneByte_announced : (∃ a, Ends (oneByte.prog .mk2 2 fun _ => 0#8) oneByteTrace a) ∧
    (∀ r, ¬ Rejected World.start.gpio oneByteTrace r) ∧
      (((Line.start (b := .mk2) World.start.gpio).after oneByteTrace).words.filter (·.2)).length = 8 := by
  have hrreq : (World.start.gpio.after oneByteTrace).high (Board.rpRreq .mk2) = true := by decide +kernel
  refine ⟨oneByteTrace_ends, fun r hno => ?_, by decide +kernel⟩
  have hlow := hno.released
  rw [hrreq] at hlow
  cases hlow

end Libfic2
