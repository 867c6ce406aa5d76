import Libfic2.Strobes

/-!
# Words after a stalled one

`_fic_hls_receive_bytes` stops at the first word that is not acknowledged.  `_fic_hls_send_bytes`
remembers the failure and strobes the other words: they follow in order, without a hole, only when no
word before the last one of the call is stalled (`inOrder_iff`).  In `stalledTrace` the second word is
taken and the first one is not.
-/

namespace Libfic2

open Driver Prog Line

variable (b : Board) (fuel : Nat)

/-- `_fic_hls_send_bytes` in an open transaction, and the two calls that use it. -/
inductive SendCall
  | bytes (data : Mem) (size : Nat)
  | send (data : Mem) (size : Nat)
  | write (data : Mem) (size : Nat) (addr ctrl : BitVec 32)

/-- The calls of `_fic_hls_send_bytes`. -/
def SendCall.parts : SendCall → List (Mem × Nat)
  | bytes data size => [(data, size)]
  | send data size => [(data, size)]
  | write data size addr ctrl => [(cmdBytes ctrl addr size, 12), (data, size)]

def SendCall.prog : SendCall → P Int
  | bytes data size => ficHlsSendBytes b fuel data size
  | send data size => ficHlsSend b fuel data size
  | write data size addr ctrl => ficHlsWrite b fuel data size addr ctrl

/-- The pins before the call. -/
def SendCall.Starts : SendCall → Gpio → Prop
  | bytes _ _, g => Between b g
  | _, _ => True

/-- The encoded stream. -/
def SendCall.stream (c : SendCall) : List (BitVec b.width) :=
  match c with
  | bytes data size => dataWords b data size
  | c => headWords b .write ++ c.parts.flatMap fun p => dataWords b p.1 p.2

/-- The words acknowledged, in order. -/
def Line.accepted {b : Board} (s : Line b) : List (BitVec b.width) :=
  ((s.words.filter (·.2)).map Prod.fst).reverse

/-- In the run `l` from the pins `g` no word is strobed after one that was not acknowledged, and the
words acknowledged in a call that failed are a prefix of the stream. -/
structure InOrder (c : SendCall) (g : Gpio) (l : List Ev) (r : Int) : Prop where
  stops : ∀ e ∈ ((Line.start (b := b) g).after l).words.tail, e.2 = true
  accepted : r = -1 → ((Line.start (b := b) g).after l).accepted <+: c.stream b

/-- In the calls `ps` of `_fic_hls_send_bytes`, one after the other, no word but the last of a call is
stalled. -/
def Unstalled : List (Mem × Nat) → List Ev → Prop
  | [], _ => True
  | (data, size) :: ps, l => LastStalls b fuel (dataWords b data size) l ∧
      ∀ l1 l2, l = l1 ++ l2 → Ends (ficHlsSendBytes b fuel data size) l1 0 → Unstalled ps l2

/-- The same from the beginning of the run, where the transaction is opened. -/
def SendCall.Unstalled (c : SendCall) (l : List Ev) : Prop :=
  match c with
  | bytes data size => LastStalls b fuel (dataWords b data size) l
  | c => ∀ l1 l2, l = l1 ++ l2 → Ends (ficHlsCommInitiate b fuel .write) l1 0 →
      Libfic2.Unstalled b fuel c.parts l2

/-- The calls `ps`, each after the one before has succeeded, and then `k`. -/
def sendParts : List (Mem × Nat) → (k : P Int) → P Int
  | [], k => k
  | (data, size) :: ps, k => check (ficHlsSendBytes b fuel data size) (sendParts ps k)

section
variable {b fuel} {l : List Ev} {s : Line b} {r : Int} {old sent : List (BitVec b.width × Bool)}
    {ws : List (BitVec b.width)}

/-- The words `sent` have been strobed, the first ones of `ws`; they are all acknowledged, the last one
aside, when `C`. -/
structure Sends (ws : List (BitVec b.width)) (C : Prop) (old : List (BitVec b.width × Bool)) (s : Line b)
    (sent : List (BitVec b.width × Bool)) : Prop where
  words : s.words = sent.reverse ++ old
  stream : sent.map Prod.fst <+: ws
  acked : C ↔ ∀ e ∈ sent.dropLast, e.2 = true

theorem at_sendParts {ps : List (Mem × Nat)} {k : P Int}
    (hk : ∀ l r (s : Line b) old, At (Between b) false old s → Ends k l r →
      (s.after l).words = old) (h : At (Between b) false old s) (he : Ends (sendParts b fuel ps k) l r) :
    ∃ sent, Sends (ps.flatMap fun p => dataWords b p.1 p.2)
      (Unstalled b fuel ps l) old (s.after l) sent := by
  induction ps generalizing l s old with
  | nil => exact ⟨[], hk l r s old h he, List.nil_prefix, fun _ => nofun, fun _ => trivial⟩
  | cons p ps ih =>
    obtain ⟨data, size⟩ := p
    obtain ⟨r1, l1, l2, rfl, h1, h2⟩ := ends_bind.1 he
    obtain ⟨sent, hwords, hend, hlast, hr1⟩ := at_ficHlsSendBytes h h1
    have hcond : Unstalled b fuel ((data, size) :: ps) (l1 ++ l2) ↔
        (∀ e ∈ sent.dropLast, e.2 = true) ∧ (r1 = 0 → Unstalled b fuel ps l2) := by
      refine and_congr (hlast l2) ⟨fun hrest hr => hrest l1 l2 rfl (hr ▸ h1), fun hrest k1 k2 heq hk1 => ?_⟩
      obtain ⟨rfl, rfl, hr⟩ := ends_cancel h1 hk1 heq
      exact hrest hr
    rw [line_append, hcond]
    rcases hr1 with ⟨rfl, hacked⟩ | rfl
    · obtain ⟨sent', hsent'⟩ := ih hend h2
      refine ⟨sent ++ sent', ?_, ?_, ?_⟩
      · rw [hsent'.words, List.reverse_append, List.append_assoc]
      · rw [List.map_append, hwords, List.flatMap_cons]
        exact (List.prefix_append_right_inj _).2 hsent'.stream
      · rw [dropLast_acked hacked, ← hsent'.acked]
        exact ⟨fun hc => hc.2 rfl, fun hc =>
          ⟨fun e he => hacked e ((List.dropLast_sublist _).subset he), fun _ => hc⟩⟩
    · obtain ⟨rfl, rfl⟩ := h2
      refine ⟨sent, hend.words, ?_, ?_⟩
      · rw [hwords, List.flatMap_cons]
        exact List.prefix_append ..
      · exact ⟨fun hc => hc.1, fun hc => ⟨hc, fun h0 => absurd h0 (by decide)⟩⟩

/-- What a run has strobed. -/
theorem at_transaction {ps : List (Mem × Nat)} (g : Gpio)
    (he : Ends (check (ficHlsCommInitiate b fuel .write) <|
      sendParts b fuel ps <| check (ficHlsCommTerminate b fuel) (ret 0)) l r) :
    ∃ sent, Sends (headWords b .write ++ ps.flatMap fun p => dataWords b p.1 p.2)
      (∀ l1 l2, l = l1 ++ l2 → Ends (ficHlsCommInitiate b fuel .write) l1 0 → Unstalled b fuel ps l2) []
      ((Line.start g).after l) sent := by
  obtain ⟨r1, l1, l2, rfl, h1, h2⟩ := ends_bind.1 he
  have hcond : (∀ k1 k2, l1 ++ l2 = k1 ++ k2 → Ends (ficHlsCommInitiate b fuel .write) k1 0 →
      Unstalled b fuel ps k2) ↔ (r1 = 0 → Unstalled b fuel ps l2) := by
    refine ⟨fun hrest hr => hrest l1 l2 rfl (hr ▸ h1), fun hrest k1 k2 heq hk1 => ?_⟩
    obtain ⟨rfl, rfl, hr⟩ := ends_cancel h1 hk1 heq
    exact hrest hr
  rw [hcond]
  rcases at_ficHlsCommInitiate (s := Line.start g) rfl h1 with ⟨rfl, -, h⟩ | ⟨-, ⟨rfl, hpart⟩ | ⟨rfl, h⟩⟩
  · obtain ⟨rfl, rfl⟩ := h2
    rw [List.append_nil]
    exact ⟨[], h.words, List.nil_prefix, fun _ => nofun, fun _ h0 => absurd h0 (by decide)⟩
  · obtain ⟨rfl, rfl⟩ := h2
    obtain ⟨sent, hw, hpre, hack, -⟩ := hpart
    rw [List.append_nil]
    exact ⟨sent, hw, hpre.trans (List.prefix_append ..), fun _ => hack, fun _ h0 => absurd h0 (by decide)⟩
  · have hk : ∀ l r (s : Line b) old, At (Between b) false old s →
        Ends (check (ficHlsCommTerminate b fuel) (ret 0)) l r → (s.after l).words = old := by
      intro l r s old h he
      obtain ⟨r1, l1, l2, rfl, h1, h2⟩ := ends_bind.1 he
      obtain rfl := ends_answers h2
      rw [List.append_nil]
      exact terminate_words h h1
    obtain ⟨sent, hsent⟩ := at_sendParts hk h h2
    rw [line_append]
    refine ⟨acked (headWords b .write) ++ sent, ?_, ?_, ?_⟩
    · rw [hsent.words, List.reverse_append, List.append_assoc]
      rfl
    · rw [List.map_append, acked_words]
      exact (List.prefix_append_right_inj _).2 hsent.stream
    · rw [dropLast_acked fun e => acked_mem, ← hsent.acked]
      exact ⟨fun hc => hc rfl, fun hc _ => hc⟩

/-- Leaving out the last word or not. -/
theorem prefix_of_acked (h : ∀ e ∈ sent.dropLast, e.2 = true) :
    (sent.filter (·.2)).map Prod.fst <+: sent.map Prod.fst := by
  rcases List.eq_nil_or_concat sent with rfl | ⟨front, e, rfl⟩
  · exact List.prefix_rfl
  · rw [List.concat_eq_append] at h ⊢
    rw [List.dropLast_append_of_ne_nil (List.cons_ne_nil e []),
      List.dropLast_singleton, List.append_nil] at h
    rw [List.filter_append, List.filter_eq_self.2 h, List.map_append, List.map_append]
    refine (List.prefix_append_right_inj _).2 ?_
    cases he : e.2 with
    | true => rw [List.filter_cons_of_pos he]; exact List.prefix_rfl
    | false => rw [List.filter_cons_of_neg (by rw [he]; decide)]; exact List.nil_prefix

theorem Sends.inOrder {c : SendCall} {C : Prop} {g : Gpio}
    (h : Sends (c.stream b) C [] ((Line.start g).after l) sent) : InOrder b c g l r ↔ C := by
  have hwords : ((Line.start (b := b) g).after l).words = sent.reverse := by rw [h.words, List.append_nil]
  have hstops : (∀ e ∈ ((Line.start (b := b) g).after l).words.tail, e.2 = true) ↔ C := by
    rw [hwords, List.tail_reverse, h.acked]
    exact forall_congr' fun e => by rw [List.mem_reverse]
  refine ⟨fun hin => hstops.1 hin.stops, fun hc => ⟨hstops.2 hc, fun _ => ?_⟩⟩
  unfold Line.accepted
  rw [hwords, List.filter_reverse, List.map_reverse, List.reverse_reverse]
  exact (prefix_of_acked (h.acked.1 hc)).trans h.stream

theorem bytes_inOrder {data : Mem} {size : Nat} {g : Gpio} (hg : Between b g)
    (he : Ends (ficHlsSendBytes b fuel data size) l r) :
    InOrder b (.bytes data size) g l r ↔ LastStalls b fuel (dataWords b data size) l := by
  have hstart : At (Between b) false [] (Line.start (b := b) g) := ⟨hg, rfl, rfl⟩
  obtain ⟨sent, hwords, hend, hlast, -⟩ := at_ficHlsSendBytes hstart he
  have hl := hlast []
  rw [List.append_nil] at hl
  have hstream : sent.map Prod.fst <+: dataWords b data size := ⟨[], by rw [List.append_nil, hwords]⟩
  exact Sends.inOrder (c := .bytes data size) ⟨hend.words, hstream, hl⟩

/-- **A stalled word ends the stream**, and the words acknowledged are a prefix of it, exactly when no
word but the last of a call of `_fic_hls_send_bytes` is stalled. -/
theorem inOrder_iff {c : SendCall} {g : Gpio} (hg : c.Starts b g) (he : Ends (c.prog b fuel) l r) :
    InOrder b c g l r ↔ c.Unstalled b fuel l := by
  cases c with
  | bytes data size => exact bytes_inOrder hg he
  | send data size =>
    obtain ⟨sent, hsent⟩ :=
      at_transaction g (show Ends
        (check _ (sendParts b fuel (SendCall.send data size).parts _)) l r from he)
    exact Sends.inOrder (c := .send data size) hsent
  | write data size addr ctrl =>
    obtain ⟨sent, hsent⟩ :=
      at_transaction g (show Ends
        (check _ (sendParts b fuel (SendCall.write data size addr ctrl).parts _)) l r from he)
    exact Sends.inOrder (c := .write data size addr ctrl) hsent

end

/-! ## A peer that misses the first word -/

section
variable {c : BitVec 32 → Bool} {v : BitVec 32}

theorem ends_pollTimed_once {t : Int} (hv : c v = false) :
    Ends (pollTimed 1 c) [⟨.time, t⟩, ⟨.get, v⟩] 0 := by
  refine ends_callBind.2 ⟨t, _, rfl,
    ends_bind.2 ⟨some 0, [⟨.get, v⟩], [], rfl, ends_callBind.2 ⟨v, [], rfl, ?_⟩, rfl, rfl⟩⟩
  rw [hv]
  exact ⟨rfl, rfl⟩

theorem ends_spin_once (hv : c v = false) : Ends (spin 1 c) [⟨.get, v⟩] 0 := by
  refine ends_bind.2 ⟨some 0, [⟨.get, v⟩], [], rfl, ends_callBind.2 ⟨v, [], rfl, ?_⟩, rfl, rfl⟩
  rw [hv]
  exact ⟨rfl, rfl⟩

theorem ends_pollCounted_once {n : Nat} (hv : c v = false) : Ends (pollCounted c n) [⟨.get, v⟩] 0 := by
  cases n with
  | zero =>
    refine ends_callBind.2 ⟨v, [], rfl, ?_⟩
    rw [hv]
    exact ⟨rfl, rfl⟩
  | succ n =>
    refine ends_callBind.2 ⟨v, [], rfl, ?_⟩
    rw [hv]
    exact ⟨rfl, rfl⟩

theorem ends_pollCounted_never {n : Nat} (hv : c v = true) :
    Ends (pollCounted c n) (List.replicate (n + 1) ⟨.get, v⟩) (-1) := by
  induction n with
  | zero =>
    refine ends_callBind.2 ⟨v, [], rfl, ?_⟩
    rw [hv]
    exact ⟨rfl, rfl⟩
  | succ n ih =>
    refine ends_callBind.2 ⟨v, List.replicate (n + 1) ⟨.get, v⟩, rfl, ?_⟩
    rw [hv]
    exact ih

end

/-- The pins while RREQ and the word are driven high, and while RSTB is as well. -/
def wordLow (w : BitVec 16) : BitVec 32 := rpPin (Board.rpRreq .mk2) ||| busWord .mk2 w
def wordHigh (w : BitVec 16) : BitVec 32 :=
  rpPin (Board.rpRreq .mk2) ||| (rpPin (Board.rpRstb .mk2) ||| busWord .mk2 w)

/-- The trace of `fic_comm_send_fast` on mk2, with `wait` for the wait for FACK. -/
def fastTrace (w : BitVec 16) (wait : List Ev) : List Ev :=
  [⟨.clr (sendMask .mk2), ()⟩, ⟨.time, (0 : Int)⟩, ⟨.get, wordLow 0#16⟩] ++
    ([⟨.set (rpPin (Board.rpRstb .mk2) ||| busWord .mk2 w), ()⟩, ⟨.get, wordHigh w⟩] ++
      (wait ++ [⟨.clr (rpPin (Board.rpRstb .mk2)), ()⟩, ⟨.get, wordLow w⟩]))

section
variable {w : BitVec 16} {wait : List Ev} {r : Int}

theorem ends_fastClear :
    Ends (ficClrGpio 1 (sendMask .mk2)) [⟨.clr (sendMask .mk2), ()⟩, ⟨.time, (0 : Int)⟩,
      ⟨.get, wordLow 0#16⟩] 0 :=
  ⟨(), _, rfl, ends_pollTimed_once (by decide)⟩

theorem ends_fastSet (hset : notSet (rpPin (Board.rpRstb .mk2) ||| busWord .mk2 w) (wordHigh w) = false) :
    Ends (ficSetGpioFast 1 (rpPin (Board.rpRstb .mk2) ||| busWord .mk2 w))
      [⟨.set (rpPin (Board.rpRstb .mk2) ||| busWord .mk2 w), ()⟩, ⟨.get, wordHigh w⟩] 0 :=
  ⟨(), _, rfl, ends_spin_once hset⟩

theorem ends_fastTrace (hset : notSet (rpPin (Board.rpRstb .mk2) ||| busWord .mk2 w) (wordHigh w) = false)
    (hclr : notClr (rpPin (Board.rpRstb .mk2)) (wordLow w) = false)
    (hwait : Ends (ficCommWaitFackUpNotimeout .mk2) wait r) (hr : intOr (intOr 0 r) 0 = r) :
    Ends (ficCommSendFast .mk2 1 (busWord .mk2 w)) (fastTrace w wait) r := by
  refine ends_bind.2 ⟨0, _, _, rfl, ends_fastClear, ends_bind.2 ⟨0, _, _, rfl, ends_fastSet hset, ?_⟩⟩
  refine ends_bind.2 ⟨r, wait, _, rfl, hwait,
    ends_bind.2 ⟨0, _, [], (List.append_nil _).symm, ⟨(), _, rfl, ends_spin_once hclr⟩, rfl, ?_⟩⟩
  exact hr.symm

theorem stalled_fastTrace
    (hset : notSet (rpPin (Board.rpRstb .mk2) ||| busWord .mk2 w) (wordHigh w) = false)
    (hwait : Ends (ficCommWaitFackUpNotimeout .mk2) wait (-1)) :
    Stalled .mk2 1 (busWord .mk2 w) (fastTrace w wait) := by
  refine ⟨_, _, _, 0, 0, rfl, ends_fastClear, ends_fastSet hset, ?_⟩
  rcases (polls_pollCounted (fackLow .mk2) (commTimeoutNum + 1)).settled (fun r => ok_not_err) hwait
    with ⟨hok, -⟩ | ⟨-, hw⟩
  · cases hok
  · rw [AllAnswered, readings_append, hw]
    decide

end

def stalledData : Mem := fun i => BitVec.ofNat 8 (0x11 * (i + 1))

/-- FACK stays low for the first word of four bytes, and follows RSTB for the second. -/
def stalledTrace : List Ev :=
  fastTrace 0x2211#16 (List.replicate (commTimeoutNum + 2) ⟨.get, wordHigh 0x2211#16⟩) ++
    fastTrace 0x4433#16 [⟨.get, wordHigh 0x4433#16 ||| rpPin (Board.rpFack .mk2)⟩]

theorem stalledTrace_first :
    Ends (ficCommWaitFackUpNotimeout .mk2)
      (List.replicate (commTimeoutNum + 2) ⟨.get, wordHigh 0x2211#16⟩) (-1) :=
  ends_pollCounted_never (by decide)

theorem stalledTrace_word : Ends (ficCommSendFast .mk2 1 (busWord .mk2 0x2211#16))
    (fastTrace 0x2211#16 (List.replicate (commTimeoutNum + 2) ⟨.get, wordHigh 0x2211#16⟩)) (-1) :=
  ends_fastTrace (by decide) (by decide) stalledTrace_first (by decide)

theorem stalledTrace_second : Ends (ficCommSendFast .mk2 1 (busWord .mk2 0x4433#16))
    (fastTrace 0x4433#16 [⟨.get, wordHigh 0x4433#16 ||| rpPin (Board.rpFack .mk2)⟩]) 0 :=
  ends_fastTrace (by decide) (by decide) (ends_pollCounted_once (by decide)) (by decide)

theorem stalledTrace_ends : Ends ((SendCall.bytes stalledData 4).prog .mk2 1) stalledTrace (-1) := by
  have hloop : Ends (sendWords .mk2 1 [0x2211#16, 0x4433#16] 0) stalledTrace (-1) :=
    ends_bind.2 ⟨-1, _, _, rfl, stalledTrace_word,
      ends_bind.2 ⟨0, _, [], (List.append_nil _).symm, stalledTrace_second, rfl, by decide⟩⟩
  show Ends (ficHlsSendBytes .mk2 1 stalledData 4) stalledTrace (-1)
  rw [ficHlsSendBytes_eq, if_neg (by decide),
    show dataWords .mk2 stalledData 4 = [0x2211#16, 0x4433#16] from rfl]
  exact ends_bind.2 ⟨-1, stalledTrace, [], (List.append_nil _).symm, hloop, rfl, rfl⟩

theorem inOrder_stalledTrace : Ends ((SendCall.bytes stalledData 4).prog .mk2 1) stalledTrace (-1) ∧
    (InOrder .mk2 (.bytes stalledData 4) (openPins true) stalledTrace (-1) ↔
      (SendCall.bytes stalledData 4).Unstalled .mk2 1 stalledTrace) :=
  ⟨stalledTrace_ends, inOrder_iff (c := .bytes stalledData 4) openPins_between stalledTrace_ends⟩

/-- The second word is strobed after the first one was not acknowledged. -/
theorem stalledTrace_resumes : Ends ((SendCall.bytes stalledData 4).prog .mk2 1) stalledTrace (-1) ∧
    ¬ InOrder .mk2 (.bytes stalledData 4) (openPins true) stalledTrace (-1) := by
  refine ⟨stalledTrace_ends, fun hin => ?_⟩
  have he : Ends (ficHlsSendBytes .mk2 1 stalledData 4) stalledTrace (-1) := stalledTrace_ends
  have hclear : LastStalls .mk2 1 [0x2211#16, 0x4433#16] stalledTrace :=
    (bytes_inOrder openPins_between he).1 hin
  exact (hclear _ _ _ rfl stalledTrace_word).1 (stalled_fastTrace (by decide) stalledTrace_first)

end Libfic2
