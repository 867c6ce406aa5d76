import Libfic2.HlsAnswers

/-!
# The wire format of the HLS transfers

`strobed b` records the word on the data pins at every strobe, that is whenever RSTB
becomes driven high while RREQ is, and closes the transaction when RREQ falls.
`offering b f` puts the words `f 0`, `f 1`, .. on the data pins, the next one at every
strobe.  Both let GET_GPIO read anything else.

* `hls_wire`: what `fic_hls_write` and the first transaction of `fic_hls_read` strobe
  decodes to their arguments, and `_fic_hls_receive_bytes` undoes
  `_fic_hls_send_bytes`.
-/

namespace Libfic2

open Driver Prog Sys

variable (b : Board) (float : BitVec 32)

/-! ## The devices -/

/-- RREQ is not driven high any more. -/
def releaseEdge (g g' : Gpio) : Bool := g.high b.rpRreq && !g'.high b.rpRreq

/-- The words of the transactions so far, and of the one that is open. -/
structure Wire where
  closed : List (List (BitVec b.width))
  words : List (BitVec b.width)

/-- Records the word of every strobe. -/
def strobed : Device (Wire b) where
  level _ _ _ := True
  seen g g' d :=
    if strobeEdge b g g' then ⟨d.closed, d.words ++ [g'.bus float b.rpDataLow b.width]⟩
    else if releaseEdge b g g' && !d.words.isEmpty then ⟨d.closed ++ [d.words], []⟩
    else d
  env _ _ _ := False

/-- Puts the next word on the data pins at every strobe; its state counts the strobes. -/
def offering (f : Nat → BitVec b.width) : Device Nat where
  level g k v :=
    ∀ p, dataPin b p = true → g.fn p = 0#3 → v.getLsbD p = (f (k - 1)).getLsbD (p - b.rpDataLow)
  seen g g' k := if strobeEdge b g g' then k + 1 else k
  env _ _ _ := False

section
variable {b}

theorem strobed_still : (strobed b float).Still := fun _ _ _ h => h

theorem releaseEdge_armed {g g' : Gpio} (h : Armed b g') : releaseEdge b g g' = false := by
  unfold releaseEdge
  rw [h.1]
  exact Bool.and_false _

theorem strobeEdge_calm {g g' : Gpio} (h : Calm b g') : strobeEdge b g g' = false := by
  unfold strobeEdge
  rcases h with h | h
  · rw [h, Bool.and_false]
  · rw [h]
    rfl

/-- Clearing function selects raises nothing. -/
theorem strobeEdge_clearSel (g : Gpio) (r : Nat) : strobeEdge b g (g.clearSel r) = false := by
  unfold strobeEdge Gpio.high Gpio.isOut
  rw [Gpio.fn_clearSel, Gpio.lat_clearSel]
  split
  · rfl
  · cases (g.fn b.rpRstb == 1#3 && g.lat b.rpRstb) <;> rfl

/-- Without a strobe an empty transaction stays empty. -/
theorem strobed_idle {g g' : Gpio} {d : Wire b} (h : strobeEdge b g g' = false) (hd : d.words = []) :
    (strobed b float).seen g g' d = d := by
  show (if strobeEdge b g g' then _ else if releaseEdge b g g' && !d.words.isEmpty then _ else d) = d
  rw [h, hd, List.isEmpty_nil, Bool.not_true, Bool.and_false]
  rfl

theorem strobed_armed {g g' : Gpio} {d : Wire b} (h : Armed b g') : (strobed b float).seen g g' d = d := by
  show (if strobeEdge b g g' then _ else if releaseEdge b g g' && !d.words.isEmpty then _ else d) = d
  rw [strobeEdge_armed h, releaseEdge_armed h, Bool.false_and]
  rfl

/-- The recorder as a peer that takes every word, after the transactions `closed`. -/
def strobedChannel (closed : List (List (BitVec b.width))) :
    FastChannel b (strobed b float) (List (BitVec b.width)) where
  ready l d := d = ⟨closed, l⟩
  next l w := l ++ [w]
  sent l w := by
    refine ⟨fun d => d = ⟨closed, l ++ [w]⟩, fun d => d = ⟨closed, l ++ [w]⟩,
      ⟨fun _ _ _ _ _ h => h.elim, fun g g' d _ h' hd => ?_⟩, fun g g' d h h' hd => ?_,
      fun _ _ _ _ _ h => h.elim,
      fun _ _ _ _ h _ _ => h, fun _ _ _ _ _ h => h.elim, fun g g' d h h' hd => ?_,
      fun _ _ _ _ _ h => h.elim⟩
    · rw [strobed_armed float h']
      exact hd
    · show (if strobeEdge b g g' then Wire.mk d.closed (d.words ++ [g'.bus float b.rpDataLow b.width])
        else _) = _
      rw [h.strobeEdge h', h'.bus float, hd]
      rfl
    · show (strobed b float).seen g g' d = _
      rw [strobed_armed float h'.armed]
      exact hd

theorem strobed_calm (closed : List (List (BitVec b.width))) :
    CalmStable b (strobed b float) ((strobedChannel float closed).ready []) := by
  refine ⟨fun _ _ _ _ _ h => h.elim, fun g g' d _ h' hd => ?_⟩
  have hw : d.words = [] := congrArg Wire.words hd
  show (strobed b float).seen g g' d = _
  rw [strobed_idle float (strobeEdge_calm h') hw]
  exact hd

theorem strobed_after (closed : List (List (BitVec b.width))) (l ws : List (BitVec b.width)) :
    (strobedChannel float closed).after l ws = l ++ ws := FastChannel.after_eq_append (fun _ _ => rfl) l ws

/-- SET_ALL_INPUT is no strobe, whatever the pins were. -/
theorem strobed_setAllInput {s : World (Wire b)} (hs : s.dev.words = []) :
    wp (sys (strobed b float)) anyTime
      (fun _ t => Holds (SetBelow b 0) ((strobedChannel float s.dev.closed).ready []) t) setAllInput s := by
  have keep : ∀ (t : World (Wire b)) (r : Nat), t.dev = s.dev →
      (t.touch (strobed b float) (t.gpio.clearSel r)).dev = s.dev := by
    intro t r ht
    show (strobed b float).seen t.gpio (t.gpio.clearSel r) t.dev = s.dev
    rw [strobed_idle float (strobeEdge_clearSel _ _) (by rw [ht, hs]), ht]
  refine wp_opStill (strobed_still float) (o := .clearSel 0) trivial fun _ s1 (h1 : s1 = _) => ?_
  refine wp_opStill (strobed_still float) (o := .clearSel 1) trivial fun _ s2 (h2 : s2 = _) => ?_
  refine wp_opStill (strobed_still float) (o := .clearSel 2) trivial fun _ s3 (h3 : s3 = _) => ?_
  subst h1 h2 h3
  refine wp_retStill (strobed_still float) trivial
    ⟨⟨fun p hp => absurd hp (Nat.not_lt_zero _), fun p hp _ => Gpio.fn_allInput _ hp⟩, ?_⟩
  show _ = (⟨s.dev.closed, []⟩ : Wire b)
  rw [← hs]
  exact keep _ 2 (keep _ 1 (keep _ 0 rfl))

/-! ## Recorded transactions -/

variable (fuel : Nat)

/-- `_fic_hls_comm_terminate` closes the transaction. -/
theorem strobed_terminate {closed : List (List (BitVec b.width))} {l : List (BitVec b.width)} (hl : l ≠ [])
    {s : World (Wire b)} (hs : Holds (Between b) ((strobedChannel float closed).ready l) s) :
    wp (sys (strobed b float)) anyTime (fun r t => ¬ r < 0 → t.dev = ⟨closed ++ [l], []⟩)
      (ficHlsCommTerminate b fuel) s := by
  have hm : (rpPin b.rpRreq ||| rpPin b.rpRstb).getLsbD b.rpRreq = true := by
    cases b <;> decide
  have hclose : ∀ g d, Between b g → (strobedChannel float closed).ready l d →
      (strobed b float).seen g (g.clr (rpPin b.rpRreq ||| rpPin b.rpRstb)) d = ⟨closed ++ [l], []⟩ := by
    rintro g d ⟨_, h⟩ (hd : d = ⟨closed, l⟩)
    have hrel := released_clr h.freq hm
    have hedge : releaseEdge b g (g.clr (rpPin b.rpRreq ||| rpPin b.rpRstb)) = true := by
      unfold releaseEdge
      rw [h.rreq, hrel.rreq]
      rfl
    show (if strobeEdge b g _ then _ else if releaseEdge b g _ && !d.words.isEmpty then
      Wire.mk (d.closed ++ [d.words]) [] else d) = _
    rw [strobeEdge_calm hrel.calm, hedge, hd, List.isEmpty_eq_false_iff.2 hl]
    rfl
  refine wp_closeBus (strobed_calm float (closed ++ [l])) fuel hm ((strobedChannel float closed).stable l)
    (fun _ hg => hg.elim fun _ h => h.freq) hclose (strobed_calm float _) (fun _ _ _ _ h _ _ => h) hs
    (fun _ h => absurd (by decide) h) fun t ht => ?_
  exact wp_retStill (strobed_still float) trivial fun _ => ht.2

/-- `_fic_hls_comm_initiate` on the recorder. -/
theorem strobed_initiate {s : World (Wire b)} (hs : s.dev.words = []) :
    wp (sys (strobed b float)) anyTime
      (Opened (Between b) ((strobedChannel float s.dev.closed).ready
      (cmdBits b .write :: addrWords b commAddrHls))) (ficHlsCommInitiate b fuel .write) s := by
  have h := (strobedChannel float s.dev.closed).toChannel.wp_initiate fuel (strobed_calm float _) .write
    (strobed_setAllInput float hs)
  rwa [show (strobedChannel float s.dev.closed).toChannel.after []
    (cmdBits b .write :: addrWords b commAddrHls) = _ from strobed_after float s.dev.closed [] _] at h

/-- `_fic_hls_send_bytes` on the recorder. -/
theorem strobed_sendBytes {closed : List (List (BitVec b.width))} {l : List (BitVec b.width)}
    (data : Mem) (size : Nat)
    {s : World (Wire b)} (hs : Holds (Between b) ((strobedChannel float closed).ready l) s) :
    wp (sys (strobed b float)) anyTime
      (fun r t => ¬ r < 0 → SizeOk b size ∧
        Holds (Between b) ((strobedChannel float closed).ready (l ++ byteWords b (bytesOf data 0 size))) t)
      (ficHlsSendBytes b fuel data size) s := by
  have h := (strobedChannel float closed).wp_sendBytes fuel data size hs
  rwa [strobed_after] at h

/-- The transaction of a message. -/
def headMessage (b : Board) (ctrl addr : BitVec 32) (size : BitVec 32) (payload : List (BitVec 8)) :
    HlsMessage b :=
  ⟨cmdBits b .write, commAddrHls, ctrl, addr, size, payload⟩

theorem encode_headMessage (ctrl addr size : BitVec 32) (payload : List (BitVec 8)) :
    (headMessage b ctrl addr size payload).encodeMessage =
      cmdBits b .write :: addrWords b commAddrHls ++
      byteWords b (bytesOf (cmdBytes ctrl addr size.toNat) 0 12) ++
        byteWords b payload := by
  have h12 : Carries b (bytesOf (cmdBytes ctrl addr size.toNat) 0 12).length := by
    rw [bytesOf_length]
    exact fun _ => rfl
  rw [List.append_assoc, ← byteWords_append h12, bytesOf_cmdBytes, BitVec.ofNat_toNat, BitVec.setWidth_eq]
  unfold HlsMessage.encodeMessage headMessage
  rw [List.append_assoc (leBytes ctrl)]
  rfl

/-- `ws` is read as `m`, and is the encoding of nothing else. -/
def DecodesTo (ws : List (BitVec b.width)) (m : HlsMessage b) : Prop :=
  decodeMessage b ws = some m ∧
    ∀ m' : HlsMessage b, Carries b m'.payload.length → m'.encodeMessage = ws → m' = m

theorem decodesTo_encode {m : HlsMessage b} (h : Carries b m.payload.length) :
    DecodesTo m.encodeMessage m := by
  refine ⟨decode_encode m h, fun m' h' he => ?_⟩
  have := decode_encode m' h'
  rw [he, decode_encode m h] at this
  exact (Option.some.inj this).symm

/-- The transaction that was closed last decodes to `m`. -/
def Recorded (closed : List (List (BitVec b.width))) (m : HlsMessage b) (t : World (Wire b)) : Prop :=
  ∃ ws, t.dev = ⟨closed ++ [ws], []⟩ ∧ DecodesTo ws m

theorem recorded_of {closed : List (List (BitVec b.width))} {m : HlsMessage b} {t : World (Wire b)}
    {ws : List (BitVec b.width)} (ht : t.dev = ⟨closed ++ [ws], []⟩) (he : m.encodeMessage = ws)
    (hc : Carries b m.payload.length) : Recorded closed m t := by
  subst he
  exact ⟨_, ht, decodesTo_encode hc⟩

/-- `fic_hls_send` of a header, the first transaction of `fic_hls_read`. -/
theorem strobed_sendHeader (ctrl addr size : BitVec 32) {s : World (Wire b)} (hs : s.dev.words = []) :
    wp (sys (strobed b float)) anyTime (fun r t => ¬ r < 0 →
      Recorded s.dev.closed (headMessage b ctrl addr size []) t)
      (ficHlsSend b fuel (cmdBytes ctrl addr size.toNat) 12) s := by
  have fail : ∀ t : World (Wire b), wp (sys (strobed b float)) anyTime
      (fun r t => ¬ r < 0 → Recorded s.dev.closed (headMessage b ctrl addr size []) t) (ret (-1)) t :=
    fun t => wp_failed t fun _ h => absurd (by decide) h
  refine wp_checkOr (wp_mono (strobed_initiate float fuel hs) fun r t _ ht =>
    ⟨fun _ => fail t, fun hr => ?_⟩)
  refine wp_checkOr (wp_mono (strobed_sendBytes float fuel _ 12 (ht hr)) fun r u _ hu =>
    ⟨fun _ => fail u, fun hr => ?_⟩)
  refine wp_checkOr (wp_mono (strobed_terminate float fuel (List.cons_ne_nil _ _) (hu hr).2) fun r v _ hv =>
    ⟨fun _ => fail v, fun hr => ?_⟩)
  have he := encode_headMessage (b := b) ctrl addr size []
  rw [show byteWords b [] = [] by cases b <;> rfl, List.append_nil] at he
  exact wp_retStill (strobed_still float) trivial fun _ => recorded_of (hv hr) he fun _ => rfl

/-- `fic_hls_write` -/
theorem strobed_write (data : Mem) (size addr ctrl : BitVec 32) {s : World (Wire b)}
    (hs : s.dev.words = []) : wp (sys (strobed b float)) anyTime
      (fun r t => ¬ r < 0 →
        Recorded s.dev.closed (headMessage b ctrl addr size (bytesOf data 0 size.toNat)) t)
      (ficHlsWrite b fuel data size.toNat addr ctrl) s := by
  have fail : ∀ t : World (Wire b), wp (sys (strobed b float)) anyTime
      (fun r t => ¬ r < 0 →
      Recorded s.dev.closed (headMessage b ctrl addr size (bytesOf data 0 size.toNat)) t)
      (ret (-1)) t :=
    fun t => wp_failed t fun _ h => absurd (by decide) h
  refine wp_checkOr (wp_mono (strobed_initiate float fuel hs) fun r t _ ht =>
    ⟨fun _ => fail t, fun hr => ?_⟩)
  refine wp_checkOr (wp_mono (strobed_sendBytes float fuel _ 12 (ht hr)) fun r u _ hu =>
    ⟨fun _ => fail u, fun hr => ?_⟩)
  refine wp_checkOr (wp_mono (strobed_sendBytes float fuel data size.toNat (hu hr).2) fun r v _ hv =>
    ⟨fun _ => fail v, fun hr => ?_⟩)
  obtain ⟨hsize, hv⟩ := hv hr
  refine wp_checkOr (wp_mono (strobed_terminate float fuel (List.cons_ne_nil _ _) hv) fun r w _ hw =>
    ⟨fun _ => fail w, fun hr => ?_⟩)
  have hc : Carries b (bytesOf data 0 size.toNat).length := by
    rw [bytesOf_length]
    exact hsize.carries
  exact wp_retStill (strobed_still float) trivial fun _ =>
    recorded_of (hw hr) (encode_headMessage ctrl addr size _) hc

/-- Closed transactions stay. -/
theorem strobed_seen_closed (g g' : Gpio) (d : Wire b) :
    d.closed <+: ((strobed b float).seen g g' d).closed := by
  show d.closed <+: (if strobeEdge b g g' then _ else if releaseEdge b g g' &&
    !d.words.isEmpty then _ else d : Wire b).closed
  split
  · exact List.prefix_refl _
  · split
    · exact List.prefix_append _ _
    · exact List.prefix_refl _

theorem strobed_keeps (l : List (List (BitVec b.width))) :
    KeepsOps (sys (strobed b float)) (fun _ => True) fun t => l <+: t.dev.closed where
  act o s a s' _ ha hs := by
    cases o with
    | get => obtain ⟨-, rfl⟩ := ha; exact hs
    | time => obtain rfl := ha; exact hs
    | clock => obtain rfl := ha; exact hs
    | stat f => obtain rfl := ha; exact hs
    | _ => obtain rfl := ha; exact hs.trans (strobed_seen_closed float _ _ _)
  env s s' he _ := by
    obtain ⟨d, hd, -⟩ := he
    exact hd.elim

/-- `fic_hls_read` -/
theorem strobed_read (buf : Mem) (size addr ctrl : BitVec 32) {s : World (Wire b)} (hs : s.dev.words = []) :
    wp (sys (strobed b float)) anyTime
      (fun r t => ¬ r.1 < 0 → ∃ ws, s.dev.closed ++ [ws] <+: t.dev.closed ∧
      DecodesTo ws (headMessage b ctrl addr size []))
      (ficHlsRead b fuel buf size.toNat addr ctrl) s := by
  refine wp_checkOr (wp_mono (strobed_sendHeader float fuel ctrl addr size hs) fun r t _ ht =>
    ⟨fun _ => ?_, fun hr => ?_⟩)
  · exact wp_failed t fun _ h => absurd (show (-1 : Int) < 0 by decide) h
  · obtain ⟨ws, he, hws⟩ := ht hr
    have hpre : s.dev.closed ++ [ws] <+: t.dev.closed := ⟨[], by rw [he, List.append_nil]⟩
    exact wp_mono (wp_weaken (wp_of_ops (strobed_keeps float _) (ops_true _) hpre) fun _ _ => trivial)
      fun r u _ hu _ => ⟨ws, hu, hws⟩

/-! ## Offered words -/

/-- The words that are offered from the `k`th strobe on. -/
def wordsFrom (f : Nat → BitVec b.width) (k n : Nat) : List (BitVec b.width) := (List.range' k n).map f

theorem wordsFrom_succ (f : Nat → BitVec b.width) (k n : Nat) :
    wordsFrom f k (n + 1) = wordsFrom f k n ++ [f (k + n)] := by
  unfold wordsFrom
  rw [List.range'_concat, List.map_append, Nat.one_mul]
  rfl

variable (b) in
/-- `offering` as a peer that hands over its words. -/
def offeringSource (f : Nat → BitVec b.width) (k : Nat) : Source b (offering b f) where
  ready l d := d = k + l.length ∧ l = wordsFrom f k l.length
  received l := by
    let X : BitVec b.width → Nat → Prop := fun u d =>
      d = k + (l ++ [u]).length ∧ l ++ [u] = wordsFrom f k (l ++ [u]).length
    refine ⟨fun d => X (f (k + l.length)) d, X, ⟨fun _ _ _ _ _ h => h.elim, fun g g' d _ h' hd => ?_⟩,
      fun g g' d h h' hd => ?_, fun _ _ _ _ _ h => h.elim, fun _ _ _ _ h _ _ => ⟨_, h⟩,
      fun _ _ _ _ _ _ h => h.elim,
      fun u g d v h hd hv => ?_, fun u g g' d h h' hd => ?_, fun _ _ _ _ _ _ h => h.elim⟩
    · rw [show (offering b f).seen g g' d = if strobeEdge b g g' then d + 1
        else d from rfl, strobeEdge_armed h']
      exact hd
    · show X _ (if strobeEdge b g g' then d + 1 else d)
      rw [h.strobeEdge h', if_pos rfl, hd.1]
      refine ⟨?_, ?_⟩
      · rw [List.length_append]
        rfl
      · rw [List.length_append, List.length_singleton, wordsFrom_succ, ← hd.2]
    · have hu : f (d - 1) = u := by
        have h2 := hd.2
        rw [List.length_append, List.length_singleton, wordsFrom_succ] at h2
        have := List.append_inj_right' h2 rfl
        rw [hd.1, List.length_append, List.length_singleton, ← Nat.add_assoc, Nat.add_sub_cancel]
        exact (List.singleton_inj.1 this).symm
      apply BitVec.eq_of_getLsbD_eq
      intro j hj
      have hp : dataPin b (b.rpDataLow + j) = true := by rw [dataPin_iff]; omega
      have := hv _ hp (h.inputs _ hp)
      rw [Nat.add_sub_cancel_left, hu] at this
      unfold busBits
      rw [BitVec.getLsbD_setWidth, BitVec.getLsbD_ushiftRight, decide_eq_true hj, Bool.true_and]
      exact this
    · show X u (if strobeEdge b g g' then d + 1 else d)
      rw [strobeEdge_armed h'.armed]
      exact hd

theorem byteWords_length (xs ys : List (BitVec 8)) (h : xs.length = ys.length) :
    (byteWords b xs).length = (byteWords b ys).length := by
  cases b with
  | mk1 =>
    show (xs.flatMap nibbles).length = (ys.flatMap nibbles).length
    rw [List.length_flatMap, List.length_flatMap]
    show (xs.map fun _ => 2).sum = (ys.map fun _ => 2).sum
    rw [List.map_const', List.map_const', h]
  | mk2 =>
    show (pairs xs).length = (pairs ys).length
    induction xs using pairs.induct generalizing ys with
    | case1 x y xs ih =>
      obtain _ | ⟨x', _ | ⟨y', ys⟩⟩ := ys
      · cases h
      · simp at h
      · show (pairs xs).length + 1 = (pairs ys).length + 1
        rw [ih ys (by simpa using h)]
    | case2 xs hx =>
      -- fewer than two bytes
      obtain _ | ⟨x, _ | ⟨y, xs⟩⟩ := xs
      · obtain rfl := List.length_eq_zero_iff.1 h.symm
        rfl
      · obtain ⟨x', rfl⟩ := List.length_eq_one_iff.1 h.symm
        rfl
      · exact absurd rfl (hx x y xs)

/-- Receiving the words of `bs` stores `bs`. -/
theorem offering_receiveBytes (f : Nat → BitVec b.width) (buf : Mem) {bs : List (BitVec 8)}
    {n : Nat} (hn : bs.length = n) (hc : Carries b n) {u : World Nat} (hu : Listening b false u.gpio)
    (hf : wordsFrom f u.dev (byteWords b bs).length = byteWords b bs) :
    wp (sys (offering b f)) anyTime (fun r _ => ¬ r.1 < 0 → r.2 = buf.fill 0 bs)
      (ficHlsReceiveBytes b fuel buf n) u := by
  refine wp_mono ((offeringSource b f u.dev).wp_receiveBytes fuel buf n (l := []) ⟨hu, rfl, rfl⟩)
    fun r v _ hv hr => ?_
  obtain ⟨-, ws, bs', hw, hlen, hbuf, -, -, hws⟩ := hv hr
  have hsame : ws = byteWords b bs := by
    have := byteWords_wordBytes hw
    rw [← hf, ← byteWords_length bs' bs (by omega), this]
    exact hws
  rw [hsame, wordBytes_byteWords (by rwa [hn])] at hw
  rw [hbuf, ← Option.some.inj hw]

/-- What was stored, index by index. -/
theorem fill_bytesOf (data buf : Mem) (n i : Nat) :
    buf.fill 0 (bytesOf data 0 n) i = if i < n then data i else buf i := by
  rw [Mem.fill_apply, bytesOf_length]
  by_cases hi : i < n
  · rw [if_pos (by omega), if_pos hi, Nat.sub_zero, List.getD_eq_getElem?_getD]
    unfold bytesOf
    rw [List.getElem?_map, List.getElem?_range' hi, Nat.zero_add, Nat.one_mul]
    rfl
  · rw [if_neg (by omega), if_neg hi]

end

/-! ## The format -/

/-- The words that `fic_hls_write`, the first transaction of `fic_hls_read` and
`_fic_hls_send_bytes` put on the bus. -/
structure HlsWireFormat (b : Board) (float : BitVec 32) (fuel : Nat) : Prop where
  write (data : Mem) (size addr ctrl : BitVec 32) (s t : World (Wire b)) : s.dev.words = [] →
    (sys (strobed b float)).Run (ficHlsWrite b fuel data size.toNat addr ctrl, s) (ret 0, t) →
    ∃ ws, t.dev = ⟨s.dev.closed ++ [ws], []⟩ ∧
    DecodesTo ws (headMessage b ctrl addr size (bytesOf data 0 size.toNat))
  read (buf buf' : Mem) (size addr ctrl : BitVec 32) (s t : World (Wire b)) : s.dev.words = [] →
    (sys (strobed b float)).Run (ficHlsRead b fuel buf size.toNat addr ctrl, s) (ret (0, buf'), t) →
    ∃ ws, s.dev.closed ++ [ws] <+: t.dev.closed ∧ DecodesTo ws (headMessage b ctrl addr size [])
  inverse (data buf : Mem) (n : Nat) (s t : World (Wire b)) : Between b s.gpio →
    (sys (strobed b float)).Run (ficHlsSendBytes b fuel data n, s) (ret 0, t) →
    ∃ ws, t.dev = ⟨s.dev.closed, s.dev.words ++ ws⟩ ∧
      ∀ (f : Nat → BitVec b.width) (u v : World Nat) (buf' : Mem), Listening b false u.gpio →
        wordsFrom f u.dev ws.length = ws →
        (sys (offering b f)).Run (ficHlsReceiveBytes b fuel buf n, u) (ret (0, buf'), v) →
        ∀ i, buf' i = if i < n then data i else buf i

theorem hls_wire (b : Board) (float : BitVec 32) (fuel : Nat) : HlsWireFormat b float fuel := by
  constructor
  · intro data size addr ctrl s t hs hr
    exact wp_run_ret (strobed_write float fuel data size addr ctrl hs) hr (by decide)
  · intro buf buf' size addr ctrl s t hs hr
    exact wp_run_ret (strobed_read float fuel buf size addr ctrl hs) hr (show ¬ (0 : Int) < 0 by decide)
  · intro data buf n s t hs hr
    obtain ⟨hsize, ht⟩ := wp_run_ret (strobed_sendBytes float fuel data n ⟨hs, rfl⟩) hr (by decide)
    refine ⟨_, ht.2, fun f u v buf' hu hf hr' i => ?_⟩
    have hbuf :=
      wp_run_ret (offering_receiveBytes fuel f buf (bytesOf_length data 0 n) hsize.carries hu hf) hr'
      (show ¬ (0 : Int) < 0 by decide)
    rw [show buf' = _ from hbuf, fill_bytesOf]

/-! ## Two bytes -/

/-- FACK follows RSTB, a data pin that is an input reads `word`, any other pin its latch. -/
def ackLevel (word : BitVec b.width) (g : Gpio) : BitVec 32 :=
  ofBits (fun p =>
    if dataPin b p && g.fn p == 0#3 then word.getLsbD (p - b.rpDataLow)
    else if p == b.rpFack then g.high b.rpRstb else g.lat p) 32

theorem getLsbD_ackLevel (word : BitVec b.width) (g : Gpio) {p : Nat} (hp : p < 32)
    (hd : dataPin b p = true)
    (hf : g.fn p = 0#3) : (ackLevel b word g).getLsbD p = word.getLsbD (p - b.rpDataLow) := by
  unfold ackLevel
  rw [getLsbD_ofBits, decide_eq_true hp, hd, hf]
  rfl

/-- The schedule of a device whose GET_GPIO reads `ackLevel`. -/
def ackAnswer {D : Type} (dev : Device D) (word : D → BitVec b.width) : (o : Op) → World D → Ans o × World D
  | .get, s => (ackLevel b (word s.dev) s.gpio, s)
  | .time, s => (0, s)
  | .clock, s => (0, s)
  | .stat f, s => ((), { s with stat := f s.stat })
  | .setInput p, s => ((), s.touch dev (s.gpio.setInput p))
  | .setOutput p, s => ((), s.touch dev (s.gpio.setOutput p))
  | .clearSel r, s => ((), s.touch dev (s.gpio.clearSel r))
  | .set v, s => ((), s.touch dev (s.gpio.set v))
  | .clr v, s => ((), s.touch dev (s.gpio.clr v))

theorem ackAnswer_act {D : Type} (dev : Device D) (word : D → BitVec b.width)
    (h : ∀ g d, dev.level g d (ackLevel b (word d) g)) (o : Op) (s : World D) :
    ∃ t, (sys dev).Drift s t ∧ (sys dev).act o t (ackAnswer b dev word o s).1
      (ackAnswer b dev word o s).2 := by
  refine ⟨s, .refl, ?_⟩
  cases o with
  | get => exact ⟨h _ _, rfl⟩
  | _ => rfl

/-- RREQ is driven high and RSTB low, the data pins of mk2 are outputs or inputs. -/
def openPins (out : Bool) : Gpio where
  fsel r := match r with
    | 0 => if out then 0x09041000#32 else 0x00041000#32
    | 1 => if out then 0x09249249#32 else 0x00000000#32
    | 2 => if out then 0x00000249#32 else 0x00000000#32
    | _ => 0#32
  latch := rpPin rpDone

theorem openPins_between : Between .mk2 (openPins true) := by
  have hout : ∀ p, p < 24 → dataPin .mk2 p = true → (openPins true).isOut p = true ∧
      (openPins true).lat p = false := by
    decide
  have hp := fun p (hd : dataPin .mk2 p = true) => hout p (dataPin_iff.1 hd).2 hd
  refine ⟨0#_, by decide, by decide, by decide, fun p hd => (hp p hd).1, fun p hd => ?_, by decide,
    by decide⟩
  rw [(hp p hd).2, BitVec.getLsbD_zero]

theorem openPins_listening : Listening .mk2 false (openPins false) := by
  have hin : ∀ p, p < 24 → dataPin .mk2 p = true → (openPins false).fn p = 0#3 := by decide
  exact ⟨by decide, by decide, by decide, fun p hd => hin p (dataPin_iff.1 hd).2 hd, by decide, by decide⟩

def twoBytes : Mem := fun i => if i = 0 then 0x12#8 else 0x34#8

/-- The recorder with no transaction so far. -/
def silentWire (g : Gpio) : World (Wire b) := ⟨g, World.start.stat, ⟨[], []⟩⟩

/-- The bytes 0x12 and 0x34, written to address 0x1000 and read from there on both boards, and streamed
there and back on mk2. -/
theorem hls_wire_twoBytes :
    (∀ b : Board,
      (∃ t ws, (sys (strobed b 0#32)).Run
          (ficHlsWrite b 1 twoBytes 2 0x1000#32 rasddrCmdWrite, silentWire b World.start.gpio) (ret 0, t) ∧
        t.dev = ⟨[ws], []⟩ ∧ DecodesTo ws (headMessage b rasddrCmdWrite 0x1000#32 2#32 [0x12#8, 0x34#8])) ∧
      ∃ buf' t ws, (sys (strobed b 0#32)).Run
          (ficHlsRead b 1 twoBytes 2 0x1000#32 rasddrCmdRead, silentWire b World.start.gpio)
          (ret (0, buf'), t) ∧
        [ws] <+: t.dev.closed ∧ DecodesTo ws (headMessage b rasddrCmdRead 0x1000#32 2#32 [])) ∧
    ∃ f t v buf', (sys (strobed .mk2 0#32)).Run
        (ficHlsSendBytes .mk2 1 twoBytes 2, silentWire .mk2 (openPins true)) (ret 0, t) ∧
      (sys (offering .mk2 f)).Run
        (ficHlsReceiveBytes .mk2 1 (fun _ => 0#8) 2, ⟨openPins false, World.start.stat, 0⟩)
        (ret (0, buf'), v) ∧
      buf' 0 = 0x12#8 ∧ buf' 1 = 0x34#8 ∧ buf' 2 = 0#8 := by
  refine ⟨fun b => ?_, ?_⟩
  · -- a write and a read
    have hany : (strobed b 0#32).ReadsAny := fun _ _ _ => trivial
    have htwo : SizeOk b 2 := fun _ => by decide
    have hw := hls_wire b 0#32 1
    obtain ⟨⟨t, hwrite⟩, -⟩ :=
      hls_succeeds 0 hany twoBytes htwo 0x1000#32 rasddrCmdWrite (silentWire b World.start.gpio)
    obtain ⟨-, buf', u, hread⟩ :=
      hls_succeeds 0 hany twoBytes htwo 0x1000#32 rasddrCmdRead (silentWire b World.start.gpio)
    obtain ⟨ws, hws, hdec⟩ := hw.write twoBytes 2#32 0x1000#32 rasddrCmdWrite _ _ rfl hwrite
    obtain ⟨ws', hws', hdec'⟩ := hw.read twoBytes buf' 2#32 0x1000#32 rasddrCmdRead _ _ rfl hread
    exact ⟨⟨t, ws, hwrite, hws, hdec⟩, buf', u, ws', hread, hws', hdec'⟩
  · -- the stream
    have hact := ackAnswer_act .mk2 (strobed .mk2 0#32) (fun _ => 0) fun _ _ => trivial
    let f : Nat → BitVec Board.mk2.width := fun _ => 0x3412#16
    have hact' := ackAnswer_act .mk2 (offering .mk2 f) (fun k => f (k - 1)) fun g k p hp hf =>
      getLsbD_ackLevel .mk2 (f (k - 1)) g (by have := (dataPin_iff.1 hp).2; simp at this; omega) hp hf
    have hsend := follow_ret hact 900 (p := ficHlsSendBytes .mk2 1 twoBytes 2)
        (s := silentWire .mk2 (openPins true)) (a := 0)
      (by decide +kernel)
    have hanswer : (follow (ackAnswer .mk2 (offering .mk2 f) fun k => f (k - 1)) 900
        (ficHlsReceiveBytes .mk2 1 (fun _ => 0#8) 2)
        ⟨openPins false, World.start.stat, 0⟩).1.answer?.map Prod.fst = some 0 := by
      decide +kernel
    obtain ⟨⟨r, buf'⟩, hans, rfl⟩ := Option.map_eq_some_iff.1 hanswer
    have hreceive := follow_ret hact' 900 hans
    obtain ⟨ws, hws, hinv⟩ :=
      (hls_wire .mk2 0#32 1).inverse twoBytes (fun _ => 0#8) 2 _ _ openPins_between hsend
    have hwords : (follow (ackAnswer .mk2 (strobed .mk2 0#32) fun _ => 0) 900
        (ficHlsSendBytes .mk2 1 twoBytes 2)
        (silentWire .mk2 (openPins true))).2.dev.words.map BitVec.toNat = [0x3412] := by
      decide +kernel
    rw [hws] at hwords
    obtain ⟨w, rfl, hw⟩ := List.map_eq_singleton_iff.1 (show ws.map BitVec.toNat = _ from hwords)
    have hword : w = 0x3412#16 := BitVec.eq_of_toNat_eq hw
    have hbuf := hinv f _ _ buf' openPins_listening (by rw [hword]; rfl) hreceive
    exact ⟨f, _, _, buf', hsend, hreceive, hbuf 0, hbuf 1, hbuf 2⟩

end Libfic2
