import Libfic2.CommWords
import Libfic2.HlsLoops

/-!
# HLS transfers over a channel

A `FastChannel` is a peer that takes words from `fic_comm_send_fast`, a `Source` one
that hands words to `fic_comm_receive_fast`.  Whole transfers then move the peer from
one state to the next, whatever the peer is:

* `Channel.wp_initiate`: `_fic_hls_comm_initiate` sends the command and the address;
* `FastChannel.wp_sendBytes`: `_fic_hls_send_bytes` sends the words of the buffer;
* `Source.wp_receiveBytes`: `_fic_hls_receive_bytes` stores the bytes of the words
  it got.
-/

namespace Libfic2

open Driver Prog Sys

variable {b : Board} {D : Type} {dev : Device D} {A : Type} (fuel : Nat)

/-- Nothing is known when a call has failed. -/
theorem wp_failed {α : Type} {Q : α → World D → Prop} {a : α} (s : World D) (h : ∀ t, Q a t) :
    wp (sys dev) anyTime Q (ret a) s :=
  wp_retI (I := anyTime) (fun _ _ _ _ => trivial) trivial fun t _ => h t

theorem wp_anyEnd {α : Type} (p : P α) (s : World D) : wp (sys dev) anyTime (fun _ _ => True) p s :=
  wp_of_runs (fun _ _ _ => trivial) fun _ _ _ => trivial

/-! ## Command and address -/

section
variable (ch : Channel b dev A)

theorem Channel.wp_setaddr {a : A} (addr : BitVec 16) {α : Type} {Q : α → World D → Prop} {e : α} {k : P α}
    {s : World D} (hs : Holds (Between b) (ch.ready a) s) (he : ∀ t, Q e t)
    (h : ∀ t, Holds (Between b) (ch.ready (ch.after a (addrWords b addr))) t → wp (sys dev) anyTime Q k t) :
    wp (sys dev) anyTime Q (checkOr e (ficCommSetaddr b fuel addr) k) s := by
  have fail : ∀ t : World D, (((-1 : Int) < 0 → wp (sys dev) anyTime Q (ret e) t) ∧
      (¬ (-1 : Int) < 0 → wp (sys dev) anyTime Q k t)) :=
    fun t => ⟨fun _ => wp_failed t he, fun hn => absurd (by decide) hn⟩
  refine wp_checkOr ?_
  cases b with
  | mk1 =>
    refine ch.wp_send fuel _ (nibble_busWord addr 3 (by decide)) hs fail fun t1 h1 => ?_
    refine ch.wp_send fuel _ (nibble_busWord addr 2 (by decide)) h1 fail fun t2 h2 => ?_
    refine ch.wp_send fuel _ (nibble_busWord addr 1 (by decide)) h2 fail fun t3 h3 => ?_
    refine ch.wp_send fuel _ (lowNibble_busWord addr) h3 fail fun t4 h4 => ?_
    exact wp_retI (ch.stable _) h4 fun t ht => ⟨fun hn => absurd hn (by decide), fun _ => h t ht⟩
  | mk2 =>
    refine ch.wp_send fuel addr (addr_busWord addr) hs fail fun t1 h1 => ?_
    exact wp_retI (ch.stable _) h1 fun t ht => ⟨fun hn => absurd hn (by decide), fun _ => h t ht⟩

/-- Where `_fic_hls_comm_initiate` leaves the pins. -/
def Initiated (b : Board) : RasioCmd → Gpio → Prop
  | .read => Listening b false
  | _ => Between b

/-- `_fic_hls_comm_initiate` -/
theorem Channel.wp_initiate {a : A} (hcalm : CalmStable b dev (ch.ready a)) (cmd : RasioCmd) {s : World D}
    (hin : wp (sys dev) anyTime (fun _ t => Holds (SetBelow b 0) (ch.ready a) t) setAllInput s) :
    wp (sys dev) anyTime
      (Opened (Initiated b cmd) (ch.ready (ch.after a (cmdBits b cmd :: addrWords b commAddrHls))))
      (ficHlsCommInitiate b fuel cmd) s := by
  refine wp_openBus hcalm fuel hin (fun t => opened_fail t) fun t ht => ?_
  refine ch.wp_send fuel (cmdBits b cmd) (cmd_busWord b cmd) ⟨⟨_, ht.1⟩, ht.2⟩
    (fun t => opened_fail t) fun u hu => ?_
  refine ch.wp_setaddr fuel commAddrHls hu (fun t => opened_fail t) fun v hv => ?_
  have hst := ch.stable (ch.after (ch.next a (cmdBits b cmd)) (addrWords b commAddrHls))
  cases cmd with
  | read =>
    refine wp_portdirRcv (ch.armed _) hv fun w hw => ?_
    exact wp_retI ((ch.armed _).stable fun _ h => h.armed) hw fun x hx _ => hx
  | write => exact wp_retI hst hv fun x hx _ => hx
  | hlsStart => exact wp_retI hst hv fun x hx _ => hx
  | hlsReset => exact wp_retI hst hv fun x hx _ => hx

end

/-! ## Sending bytes -/

variable (b dev) in
/-- A peer that takes words without the wait for FACK down. -/
structure FastChannel (A : Type) where
  ready : A → D → Prop
  next : A → BitVec b.width → A
  sent : ∀ a w, ∃ X1 X2, WordSent b dev w (ready a) X1 X2 (ready (next a w))

namespace FastChannel
variable (fc : FastChannel b dev A)

def after (a : A) (ws : List (BitVec b.width)) : A := ws.foldl fc.next a

/-- A peer that keeps the words taken. -/
theorem after_eq_append {fc : FastChannel b dev (List (BitVec b.width))} (h : ∀ l w, fc.next l w = l ++ [w])
    (l ws : List (BitVec b.width)) : fc.after l ws = l ++ ws := by
  unfold after
  rw [show fc.next = fun l w => l ++ [w] from funext fun l => funext (h l), List.foldl_append_eq_append,
    ← List.flatMap_def, List.flatMap_singleton']

theorem armed (a : A) : ArmedStable b dev (fc.ready a) := by
  obtain ⟨X1, X2, hw⟩ := fc.sent a 0#b.width
  exact hw.before

theorem stable (a : A) : Stable dev (Holds (Between b) (fc.ready a)) :=
  (fc.armed a).stable fun _ h => h.armed

/-- It takes words from `fic_comm_send` as well. -/
def toChannel : Channel b dev A where
  ready := fc.ready
  next := fc.next
  armed := fc.armed
  sent a w := by
    obtain ⟨X1, X2, hw⟩ := fc.sent a w
    exact ⟨X1, X2, fc.ready (fc.next a w), hw, fun _ _ _ _ h _ _ => h⟩

theorem wp_send {a : A} (w : BitVec b.width) {bus : BitVec 32} (hbus : bus = busWord b w) {s : World D}
    (hs : Holds (Between b) (fc.ready a) s) :
    wp (sys dev) anyTime (fun r t => r = -1 ∨ (r = 0 ∧ Holds (Between b) (fc.ready (fc.next a w)) t))
      (ficCommSendFast b fuel bus) s := by
  obtain ⟨X1, X2, hw⟩ := fc.sent a w
  subst hbus
  exact wp_mono (wp_ficCommSendFast hw fuel hs) fun r t _ ht =>
    ht.imp_right fun ⟨hr, h⟩ => ⟨hr, ⟨w, h.1⟩, h.2⟩

end FastChannel

/-- A failure is remembered to the end of the loop. -/
theorem wp_sendWords_failed (ws : List (BitVec b.width)) (s : World D) :
    wp (sys dev) anyTime (fun r _ => r = -1) (sendWords b fuel ws (-1)) s := by
  induction ws generalizing s with
  | nil => exact wp_failed s fun _ => rfl
  | cons w ws ih =>
    refine wp_bind (wp_mono (wp_anyEnd _ s) fun r1 t _ _ => ?_)
    rw [intOr_neg_one_left]
    exact ih t

theorem FastChannel.wp_sendWords (fc : FastChannel b dev A)
    (ws : List (BitVec b.width)) {a : A} {s : World D} (hs : Holds (Between b) (fc.ready a) s) :
    wp (sys dev) anyTime (fun r t => r = -1 ∨ (r = 0 ∧ Holds (Between b) (fc.ready (fc.after a ws)) t))
      (sendWords b fuel ws 0) s := by
  induction ws generalizing a s with
  | nil => exact wp_retI (fc.stable _) hs fun t ht => .inr ⟨rfl, ht⟩
  | cons w ws ih =>
    refine wp_bind (wp_mono (fc.wp_send fuel w rfl hs) fun r1 t _ ht => ?_)
    rcases ht with rfl | ⟨rfl, ht⟩
    · rw [intOr_neg_one_right]
      exact wp_mono (wp_sendWords_failed fuel ws t) fun r u _ hr => .inl hr
    · exact ih ht

/-- The sizes that `_fic_hls_send_bytes` and `_fic_hls_receive_bytes` accept. -/
def SizeOk (b : Board) (size : Nat) : Prop := b = .mk2 → 2 ≤ size ∧ size % 2 = 0

theorem sizeOk_iff {size : Nat} : SizeOk b size ↔ ¬ refused b size = true := by
  cases b with
  | mk1 => exact iff_of_true nofun Bool.false_ne_true
  | mk2 =>
    show _ ↔ ¬ (decide (size < 2) || decide (size % 2 ≠ 0)) = true
    rw [Bool.or_eq_true, decide_eq_true_eq, decide_eq_true_eq]
    exact ⟨fun h => by have := h rfl; omega, fun h _ => by omega⟩

/-- No byte is left over. -/
theorem SizeOk.whole {size : Nat} (h : SizeOk b size) : roundBytes b ∣ size := by
  cases b with
  | mk1 => exact Nat.one_dvd size
  | mk2 => exact Nat.dvd_of_mod_eq_zero (h rfl).2

theorem SizeOk.carries {size : Nat} (h : SizeOk b size) : Carries b size := fun hb => (h hb).2

/-- `_fic_hls_send_bytes` -/
theorem FastChannel.wp_sendBytes (fc : FastChannel b dev A) (data : Mem) (size : Nat) {a : A} {s : World D}
    (hs : Holds (Between b) (fc.ready a) s) :
    wp (sys dev) anyTime
      (fun r t => ¬ r < 0 → SizeOk b size ∧
        Holds (Between b) (fc.ready (fc.after a (byteWords b (bytesOf data 0 size)))) t)
      (ficHlsSendBytes b fuel data size) s := by
  have neg : ¬ ¬ (-1 : Int) < 0 := fun h => h (by decide)
  rw [ficHlsSendBytes_eq]
  split
  · exact wp_failed s fun _ h => absurd h neg
  · next hok =>
    have hsize : SizeOk b size := sizeOk_iff.2 hok
    refine wp_bind (wp_mono (fc.wp_sendWords fuel (dataWords b data size) hs) fun r t _ ht => ?_)
    rw [show dataWords b data size = byteWords b (bytesOf data 0 size) from if_neg hok] at ht
    rcases ht with rfl | ⟨rfl, ht⟩
    · exact wp_failed t fun _ h => absurd h neg
    · exact wp_retI (fc.stable _) ht fun u hu _ => ⟨hsize, hu⟩

/-! ## Receiving bytes -/

variable (b dev) in
/-- A peer that hands over words without the wait for FACK down; `ready l` after the words `l`. -/
structure Source where
  ready : List (BitVec b.width) → D → Prop
  received : ∀ l, ∃ X1 X2, WordReceived b dev (ready l) X1 X2 fun u => ready (l ++ [u])

namespace Source
variable (src : Source b dev)

theorem armed (l : List (BitVec b.width)) : ArmedStable b dev (src.ready l) := by
  obtain ⟨X1, X2, h⟩ := src.received l
  exact h.before

theorem stable (l : List (BitVec b.width)) : Stable dev (Holds (Listening b false) (src.ready l)) :=
  (src.armed l).stable fun _ h => h.armed

theorem wp_receive (l : List (BitVec b.width)) (rcv : BitVec 32) {s : World D}
    (hs : Holds (Listening b false) (src.ready l) s) :
    wp (sys dev) anyTime
      (fun r t => ¬ r.1 < 0 → ∃ u, r.2 = u.setWidth 32 ∧ Holds (Listening b false) (src.ready (l ++ [u])) t)
      (ficCommReceiveFast b fuel rcv) s := by
  obtain ⟨X1, X2, h⟩ := src.received l
  exact wp_ficCommReceiveFast h fuel rcv hs

end Source

/-- What a run of a receive loop has stored: the bytes of the words `ws`. -/
def Stored (src : Source b dev) (l : List (BitVec b.width)) (buf : Mem) (i n : Nat) (r : Int × Mem)
    (t : World D) : Prop :=
  ∃ ws bs, wordBytes b ws = some bs ∧ bs.length = n ∧ r.2 = buf.fill i bs ∧
    Holds (Listening b false) (src.ready (l ++ ws)) t

theorem carries_rounds (n : Nat) : Carries b (roundBytes b * n) := by
  rintro rfl
  exact Nat.mul_mod_right 2 n

theorem Source.wp_receiveRound (src : Source b dev) {l : List (BitVec b.width)} {s : World D}
    (hs : Holds (Listening b false) (src.ready l) s) :
    wp (sys dev) anyTime (fun r t => ¬ r.1 < 0 → ∃ ws, wordBytes b ws = some r.2 ∧
      r.2.length = roundBytes b ∧
      Holds (Listening b false) (src.ready (l ++ ws)) t) (receiveRound b fuel) s := by
  cases b with
  | mk1 =>
    refine wp_bind (wp_mono (src.wp_receive fuel l _ hs) fun r1 t _ ht => ?_)
    dsimp only
    split
    · next hneg => exact wp_failed t fun _ h => absurd hneg h
    · next hpos =>
      obtain ⟨hi, e1, ht⟩ := ht hpos
      refine wp_bind (wp_mono (src.wp_receive fuel _ _ ht) fun r2 u _ hu => ?_)
      by_cases hr2 : r2.1 < 0
      · exact wp_failed u fun _ h => absurd hr2 h
      · obtain ⟨lo, e2, hu⟩ := hu hr2
        refine wp_retI (src.stable _) hu fun v hv _ => ⟨[hi, lo], ?_, rfl, ?_⟩
        · rw [e1, e2, show ((BitVec.setWidth 32 hi <<< 4 ||| BitVec.setWidth 32 lo) &&&
            0xff#32).setWidth 8 = _ from byte_of_nibbles hi lo]
          rfl
        · rw [List.append_assoc] at hv
          exact hv
  | mk2 =>
    refine wp_bind (wp_mono (src.wp_receive fuel l _ hs) fun r1 t _ ht => ?_)
    by_cases hr1 : r1.1 < 0
    · exact wp_failed t fun _ h => absurd hr1 h
    · obtain ⟨w, e1, ht⟩ := ht hr1
      refine wp_retI (src.stable _) ht fun u hu _ => ⟨[w], ?_, rfl, hu⟩
      obtain ⟨b0, b1⟩ := bytes_of_pair w
      rw [e1, show (BitVec.setWidth 32 w &&& 0x00ff#32).setWidth 8 = digit 8 w 0 from b0,
        show ((BitVec.setWidth 32 w &&& 0xff00#32) >>> 8).setWidth 8 = digit 8 w 1 from b1]
      rfl

theorem Source.wp_receiveRounds (src : Source b dev) (n i : Nat) (buf : Mem)
    {l : List (BitVec b.width)} {s : World D} (hs : Holds (Listening b false) (src.ready l) s) :
    wp (sys dev) anyTime (fun r t => ¬ r.1 < 0 → Stored src l buf i (roundBytes b * n) r t)
      (receiveRounds b fuel n i buf) s := by
  induction n generalizing i buf l s with
  | zero =>
    refine wp_retI (src.stable l) hs fun t ht _ => ⟨[], [], ?_, rfl, rfl, ?_⟩
    · cases b <;> rfl
    · rw [List.append_nil]
      exact ht
  | succ n ih =>
    refine wp_bind (wp_mono (src.wp_receiveRound fuel hs) fun r t _ ht => ?_)
    split
    · next hneg => exact wp_failed t fun _ h => absurd hneg h
    · next hpos =>
      obtain ⟨ws, h1, h2, ht⟩ := ht hpos
      refine wp_mono (ih (i + roundBytes b) _ ht) fun r' u _ hu hr => ?_
      obtain ⟨ws', bs, h3, h4, h5, h6⟩ := hu hr
      have hround : Carries b r.2.length := by
        rw [h2, ← Nat.mul_one (roundBytes b)]
        exact carries_rounds 1
      refine ⟨ws ++ ws', r.2 ++ bs, wordBytes_append h1 h3 hround (h4 ▸ carries_rounds n), ?_, ?_, ?_⟩
      · rw [List.length_append, h2, h4, Nat.mul_succ, Nat.add_comm]
      · rw [Mem.fill_append, h2]
        exact h5
      · rw [List.append_assoc] at h6
        exact h6

/-- `_fic_hls_receive_bytes` -/
theorem Source.wp_receiveBytes (src : Source b dev) (buf : Mem) (size : Nat) {l : List (BitVec b.width)}
    {s : World D} (hs : Holds (Listening b false) (src.ready l) s) :
    wp (sys dev) anyTime (fun r t => ¬ r.1 < 0 → SizeOk b size ∧ Stored src l buf 0 size r t)
      (ficHlsReceiveBytes b fuel buf size) s := by
  have neg : ∀ m : Mem, ¬ ¬ ((-1, m) : Int × Mem).1 < 0 := fun m h => h (show (-1 : Int) < 0 by decide)
  rw [ficHlsReceiveBytes_eq]
  split
  · exact wp_failed s fun _ h => absurd h (neg _)
  · next hok =>
    have hsize : SizeOk b size := sizeOk_iff.2 hok
    refine wp_bind (wp_mono (src.wp_receiveRounds fuel (size / roundBytes b) 0 buf hs) fun r t _ ht => ?_)
    rw [Nat.mul_div_cancel' hsize.whole] at ht
    split
    · exact wp_failed t fun _ h => absurd h (neg _)
    · next hr =>
      obtain ⟨ws, bs, h1, h2, h3, h4⟩ := ht hr
      exact wp_retI (src.stable _) h4 fun u hu _ => ⟨hsize, ws, bs, h1, h2, h3, hu⟩

end Libfic2
