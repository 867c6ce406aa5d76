import Libfic2.HlsWire

/-!
# Streaming with the fast word functions

`streamPeer b src` follows the four-phase handshake: with RSTB high and FACK low it
accepts the word on the data pins (`src = none`) or places the next word of `src`, then
raises FACK; with RSTB low it lowers FACK.  `fic_comm_send_fast` and
`fic_comm_receive_fast` leave out the wait for FACK down, so a strobe may come while FACK
is still up; the peer's `late` counts these, and such a strobe moves no word.

* `streaming_iff`: a transfer that returns 0 has moved each word once and in order
  exactly when no strobe was late.
-/

namespace Libfic2

open Driver Prog Sys

variable (b : Board)

/-! ## The peer -/

/-- The words it has accepted or placed, and the strobes that found FACK up. -/
structure StreamPeer where
  phase : Handshake
  words : List (BitVec b.width)
  late : Nat

variable {b} in
/-- The word of a strobe: the one on the data pins or the next one of `src`. -/
def StreamPeer.moves (d : StreamPeer b) (src : Option (Nat → BitVec b.width)) (w : BitVec b.width) :
    BitVec b.width :=
  match src with
  | none => w
  | some f => f d.words.length

inductive StreamPeer.Step (src : Option (Nat → BitVec b.width)) (g : Gpio) :
    StreamPeer b → StreamPeer b → Prop
  | respond (d : StreamPeer b) (float : BitVec 32) (hstb : g.high b.rpRstb = true)
    (hphase : d.phase = .ready) :
      Step src g d ⟨.taken, d.words ++ [d.moves src (g.bus float b.rpDataLow b.width)], d.late⟩
  | raise (d : StreamPeer b) (hphase : d.phase = .taken) : Step src g d ⟨.acked, d.words, d.late⟩
  | lower (d : StreamPeer b) (hstb : g.high b.rpRstb = false) (hphase : d.phase = .acked) :
      Step src g d ⟨.ready, d.words, d.late⟩

/-- FACK shows the phase; while it is up, a word that was placed is on the data pins.  All else that
GET_GPIO reads is arbitrary. -/
def streamPeer (src : Option (Nat → BitVec b.width)) : Device (StreamPeer b) where
  level g d v :=
    (g.fn b.rpFack = 0#3 → v.getLsbD b.rpFack = decide (d.phase = .acked)) ∧
    ∀ w, src.isSome = true → d.words.getLast? = some w → d.phase = .acked →
      ∀ p, dataPin b p = true → g.fn p = 0#3 → v.getLsbD p = w.getLsbD (p - b.rpDataLow)
  seen g g' d := if strobeEdge b g g' && decide (d.phase = .acked) then { d with late := d.late + 1 } else d
  env g := StreamPeer.Step b src g

/-! ## Assertions -/

section
variable {b} {src : Option (Nat → BitVec b.width)} (base : List (BitVec b.width))

/-- `ws` are the words of all strobes so far: as many as the peer has moved or missed, and the ones
it has moved if it has missed none. -/
def Kept (ws : List (BitVec b.width)) (d : StreamPeer b) : Prop :=
  d.words.length + d.late = base.length + ws.length ∧ (d.late = 0 → d.words = base ++ ws)

/-- Between two words; FACK may still be up. -/
def Waits (ws : List (BitVec b.width)) (d : StreamPeer b) : Prop :=
  d.phase ≠ .taken ∧ (d.phase = .acked → d.words ≠ []) ∧ Kept base ws d

/-- RSTB is up: the peer is about to move a word, or has moved one or missed the strobe.  `u l w`
says that `w` counts as the word of the strobe when `l` are the words moved. -/
def Answers (ws : List (BitVec b.width)) (u : List (BitVec b.width) → BitVec b.width → Prop)
    (d : StreamPeer b) : Prop :=
  (d.phase = .ready ∧ Kept base ws d) ∨
    (d.phase ≠ .ready ∧ d.words ≠ [] ∧ ∃ w, u d.words w ∧ Kept base (ws ++ [w]) d)

/-- FACK is up for the strobe of `w`. -/
def Answered (ws : List (BitVec b.width))
    (u : List (BitVec b.width) → BitVec b.width → Prop) (w : BitVec b.width)
    (d : StreamPeer b) : Prop :=
  d.phase = .acked ∧ d.words ≠ [] ∧ u d.words w ∧ Kept base (ws ++ [w]) d

variable {base}

theorem Kept.missed {ws : List (BitVec b.width)} {d : StreamPeer b}
    (h : Kept base ws d) (w : BitVec b.width) :
    Kept base (ws ++ [w]) { d with late := d.late + 1 } := by
  obtain ⟨hlen, -⟩ := h
  constructor
  · simp only [List.length_append, List.length_singleton]
    omega
  · intro h0
    simp at h0

theorem Kept.moved {ws : List (BitVec b.width)} {d : StreamPeer b} (h : Kept base ws d) (p : Handshake)
    (w : BitVec b.width) : Kept base (ws ++ [w]) ⟨p, d.words ++ [w], d.late⟩ := by
  obtain ⟨hlen, hkept⟩ := h
  constructor
  · simp only [List.length_append, List.length_singleton]
    omega
  · intro h0
    show d.words ++ [w] = base ++ (ws ++ [w])
    rw [hkept h0, List.append_assoc]

variable {ws : List (BitVec b.width)} {u : List (BitVec b.width) → BitVec b.width → Prop} {g g' : Gpio}
  {d d' : StreamPeer b}

/-- While RSTB is low the peer may lower FACK. -/
theorem Waits.step (hstb : g.high b.rpRstb = false)
    (hstep : StreamPeer.Step b src g d d') (h : Waits base ws d) : Waits base ws d' := by
  obtain ⟨htaken, -, hkept⟩ := h
  cases hstep with
  | respond _ hhigh => simp_all
  | raise hphase => exact absurd hphase htaken
  | lower => exact ⟨by simp, by simp, hkept⟩

theorem Waits.armed (ws : List (BitVec b.width)) : ArmedStable b (streamPeer b src) (Waits base ws) := by
  constructor
  · intro g d d' hg h hstep
    exact h.step hg.2 hstep
  · intro g g' d _ hg' h
    show Waits base ws (if strobeEdge b g g' && _ then _ else d)
    rw [strobeEdge_armed hg', Bool.false_and]
    exact h

/-- A strobe: it is late when FACK is still up. -/
theorem Waits.strobe (hedge : strobeEdge b g g' = true)
    (hmiss : ∀ l : List (BitVec b.width), l ≠ [] → ∃ w, u l w)
    (h : Waits base ws d) : Answers base ws u ((streamPeer b src).seen g g' d) := by
  obtain ⟨htaken, hmoved, hkept⟩ := h
  show Answers base ws u (if strobeEdge b g g' && decide (d.phase = .acked) then _ else d)
  rw [hedge, Bool.true_and]
  split
  · next hack =>
    have hphase : d.phase = .acked := of_decide_eq_true hack
    obtain ⟨w, hw⟩ := hmiss d.words (hmoved hphase)
    exact .inr ⟨by simp [hphase], hmoved hphase, w, hw, hkept.missed w⟩
  · next hack => exact .inl ⟨Handshake.eq_ready htaken (by simpa using hack), hkept⟩

/-- While RSTB is up the peer moves one word at most. -/
theorem Answers.step (hstb : g.high b.rpRstb = true) (hstep : StreamPeer.Step b src g d d')
    (hmove : ∀ (d : StreamPeer b) float, u (d.words ++ [d.moves src (g.bus float b.rpDataLow b.width)])
      (d.moves src (g.bus float b.rpDataLow b.width)))
    (h : Answers base ws u d) : Answers base ws u d' := by
  cases hstep with
  | respond float _ hphase =>
    rcases h with ⟨-, hkept⟩ | ⟨hne, -⟩
    · exact .inr ⟨by simp, List.append_ne_nil_of_right_ne_nil _ (List.cons_ne_nil _ _), _,
        hmove d float, hkept.moved _ _⟩
    · exact absurd hphase hne
  | raise hphase =>
    rcases h with ⟨hready, -⟩ | ⟨-, hne, hw⟩
    · simp_all
    · exact .inr ⟨by simp, hne, hw⟩
  | lower hlow => simp_all

/-- FACK up. -/
theorem Answers.acked {v : BitVec 32} (hf : g.fn b.rpFack = 0#3) (hv : (streamPeer b src).level g d v)
    (hack : v.getLsbD b.rpFack = true) (h : Answers base ws u d) : ∃ w, Answered base ws u w d := by
  have hphase : d.phase = .acked := by
    have := hv.1 hf
    rw [hack] at this
    exact of_decide_eq_true this.symm
  rcases h with ⟨hready, -⟩ | ⟨-, hne, w, hw, hkept⟩
  · simp_all
  · exact ⟨w, hphase, hne, hw, hkept⟩

theorem Answered.step {w : BitVec b.width} (hstb : g.high b.rpRstb = true)
    (hstep : StreamPeer.Step b src g d d') (h : Answered base ws u w d) : Answered base ws u w d' := by
  obtain ⟨hphase, -⟩ := h
  cases hstep <;> simp_all

/-- RSTB down again. -/
theorem Answered.fall {w : BitVec b.width} (hg' : Armed b g') (h : Answered base ws u w d) :
    Waits base (ws ++ [w]) ((streamPeer b src).seen g g' d) := by
  obtain ⟨hphase, hne, -, hkept⟩ := h
  show Waits base (ws ++ [w]) (if strobeEdge b g g' && _ then _ else d)
  rw [strobeEdge_armed hg', Bool.false_and]
  exact ⟨Handshake.ne_taken hphase, fun _ => hne, hkept⟩

/-! ## Both directions -/

variable (base)

/-- The peer accepts words. -/
def streamChannel : FastChannel b (streamPeer b none) (List (BitVec b.width)) where
  ready ws := Waits base ws
  next ws w := ws ++ [w]
  sent ws w := by
    refine ⟨Answers base ws fun _ w' => w' = w, Answered base ws (fun _ w' => w' = w) w, ?_⟩
    constructor
    · exact Waits.armed ws
    · intro g g' d hg hg' h
      exact h.strobe (hg.strobeEdge hg') fun _ _ => ⟨w, rfl⟩
    · intro g d d' hg h hstep
      exact h.step hg.strobe hstep fun _ float => hg.bus float
    · intro g d v hg h hv hack
      obtain ⟨w', h'⟩ := h.acked hg.fack hv hack
      obtain rfl := h'.2.2.1
      exact h'
    · intro g d d' hg h hstep
      exact h.step hg.strobe hstep
    · intro g g' d _ hg' h
      exact h.fall hg'.armed
    · intro g d d' hg h hstep
      exact h.step hg.strobe hstep

/-- The peer offers the words `f`. -/
def streamSource (f : Nat → BitVec b.width) : Source b (streamPeer b (some f)) where
  ready ws := Waits base ws
  received ws := by
    let u : List (BitVec b.width) → BitVec b.width → Prop := fun l w => l.getLast? = some w
    refine ⟨Answers base ws u, fun w => Answered base ws u w, ?_⟩
    constructor
    · exact Waits.armed ws
    · intro g g' d hg hg' h
      exact h.strobe (hg.strobeEdge hg') fun l hl => ⟨_, List.getLast?_eq_some_getLast hl⟩
    · intro g d d' hg h hstep
      exact h.step hg.strobe hstep fun d float => List.getLast?_concat
    · intro g d v hg h hv hack
      exact h.acked hg.fack hv hack
    · intro w g d d' hg h hstep
      exact h.step hg.strobe hstep
    · intro w g d v hg h hv
      ext j hj
      have hp : dataPin b (b.rpDataLow + j) = true := by rw [dataPin_iff]; omega
      have := hv.2 w rfl h.2.2.1 h.1 _ hp (hg.inputs _ hp)
      rw [Nat.add_sub_cancel_left] at this
      unfold busBits
      rw [← BitVec.getLsbD_eq_getElem, ← BitVec.getLsbD_eq_getElem, BitVec.getLsbD_setWidth,
        BitVec.getLsbD_ushiftRight, decide_eq_true hj, Bool.true_and, this]
    · intro w g g' d _ hg' h
      exact h.fall hg'.armed
    · intro w g d d' hg h hstep
      exact h.step hg.strobe hstep

theorem streamChannel_after (l ws : List (BitVec b.width)) : (streamChannel base).after l ws = l ++ ws :=
  FastChannel.after_eq_append (fun _ _ => rfl) l ws

variable {base}

/-- Nothing lost and nothing twice, when and only when nothing was missed. -/
theorem Kept.exact_iff {ws : List (BitVec b.width)} {d : StreamPeer b} (h : Kept base ws d) :
    d.words = base ++ ws ↔ d.late = 0 := by
  obtain ⟨hlen, hkept⟩ := h
  constructor
  · intro hw
    have := congrArg List.length hw
    rw [List.length_append] at this
    omega
  · exact hkept

theorem waits_start {d : StreamPeer b} (hphase : d.phase = .ready) (hlate : d.late = 0) :
    Waits d.words [] d := by
  refine ⟨by simp [hphase], by simp [hphase], ?_, fun _ => (List.append_nil _).symm⟩
  simp [hlate]

end

/-! ## Transfers -/

section
variable {b} (fuel : Nat)

/-- `_fic_hls_send_bytes` has delivered the words of the buffer. -/
def SentExactly (data : Mem) (size : Nat) (d d' : StreamPeer b) : Prop :=
  d'.words = d.words ++ byteWords b (bytesOf data 0 size)

/-- The buffer of `_fic_hls_receive_bytes` holds the words that were offered. -/
def ReceivedExactly (buf : Mem) (size : Nat) (d d' : StreamPeer b) : Prop :=
  d'.words = d.words ++ byteWords b (bytesOf buf 0 size)

/-- **Streaming.**  From FACK low, a transfer that returns 0 is exact when and only when FACK was low
at each of its strobes. -/
theorem streaming_iff {s t : World (StreamPeer b)} (hphase : s.dev.phase = .ready) (hlate : s.dev.late = 0) :
    (∀ (data : Mem) (size : Nat), Between b s.gpio →
      (sys (streamPeer b none)).Run (ficHlsSendBytes b fuel data size, s) (ret 0, t) →
      (SentExactly data size s.dev t.dev ↔ t.dev.late = 0)) ∧
    ∀ (f : Nat → BitVec b.width) (buf buf' : Mem) (size : Nat), Listening b false s.gpio →
      (sys (streamPeer b (some f))).Run (ficHlsReceiveBytes b fuel buf size, s) (ret (0, buf'), t) →
      (ReceivedExactly buf' size s.dev t.dev ↔ t.dev.late = 0) := by
  constructor
  · intro data size hpins hrun
    have hsent := (streamChannel s.dev.words).wp_sendBytes fuel data size ⟨hpins, waits_start hphase hlate⟩
    obtain ⟨-, ht⟩ := wp_run_ret hsent hrun (by decide)
    rw [streamChannel_after, List.nil_append] at ht
    exact ht.2.2.2.exact_iff
  · intro f buf buf' size hpins hrun
    have hreceived :=
      (streamSource s.dev.words f).wp_receiveBytes fuel buf size ⟨hpins, waits_start hphase hlate⟩
    obtain ⟨-, ws, bs, hbs, hlen, hbuf, ht⟩ := wp_run_ret hreceived hrun (show ¬ (0 : Int) < 0 by decide)
    have hfill : bytesOf buf' 0 size = bs := by
      rw [show buf' = buf.fill 0 bs from hbuf, ← hlen]
      exact buf.bytesOf_fill bs
    unfold ReceivedExactly
    rw [hfill, byteWords_wordBytes hbs]
    exact ht.2.2.2.exact_iff

end

/-! ## A peer that is too slow -/

/-- A peer that reacts at once, except that FACK stays up unless `lowers`. -/
def StreamPeer.eager (src : Option (Nat → BitVec b.width)) (lowers : Bool) (g : Gpio)
    (d : StreamPeer b) : StreamPeer b :=
  match d.phase with
  | .ready =>
    if g.high b.rpRstb then ⟨.taken, d.words ++ [d.moves src (g.bus 0#32 b.rpDataLow b.width)], d.late⟩
      else d
  | .taken => ⟨.acked, d.words, d.late⟩
  | .acked => if lowers && !g.high b.rpRstb then ⟨.ready, d.words, d.late⟩ else d

theorem StreamPeer.eager_step (src : Option (Nat → BitVec b.width)) (lowers : Bool)
    (g : Gpio) (d : StreamPeer b) :
    d.eager b src lowers g = d ∨ StreamPeer.Step b src g d (d.eager b src lowers g) := by
  unfold eager
  split
  · next hphase =>
    split
    · next hstb => exact .inr (.respond d 0#32 hstb hphase)
    · exact .inl rfl
  · next hphase => exact .inr (.raise d hphase)
  · next hphase =>
    split
    · next hlow =>
      rw [Bool.and_eq_true, Bool.not_eq_true'] at hlow
      exact .inr (.lower d hlow.2 hphase)
    · exact .inl rfl

/-- FACK as the peer has it, the word it has placed, the other pins as in the latch. -/
def StreamPeer.reading (src : Option (Nat → BitVec b.width)) (g : Gpio) (d : StreamPeer b) : BitVec 32 :=
  ofBits (fun p =>
    if p = b.rpFack then decide (d.phase = .acked)
    else if dataPin b p && src.isSome then (d.words.getLast?.getD 0).getLsbD (p - b.rpDataLow)
    else g.lat p) 32

theorem StreamPeer.reading_level (src : Option (Nat → BitVec b.width)) (g : Gpio) (d : StreamPeer b) :
    (streamPeer b src).level g d (d.reading b src g) := by
  have hb := board_pins (b := b)
  have ha := board_apart (b := b)
  unfold reading
  constructor
  · intro _
    rw [getLsbD_ofBits, decide_eq_true (by omega), if_pos rfl, Bool.true_and]
  · intro w hsrc hw _ p hp _
    have hlt := dataPin_iff.1 hp
    rw [getLsbD_ofBits, decide_eq_true (by omega), if_neg (dataPin_ne hp ha.2.2.2.1), hp, hsrc, hw]
    rfl

/-- The peer moves up to two steps before every operation. -/
def streamAnswer (src : Option (Nat → BitVec b.width)) (lowers : Bool) (o : Op) (s : World (StreamPeer b)) :
    Ans o × World (StreamPeer b) :=
  let t : World (StreamPeer b) :=
    { s with dev := (s.dev.eager b src lowers s.gpio).eager b src lowers s.gpio }
  match o with
  | .get => (t.dev.reading b src t.gpio, t)
  | .time => (0, t)
  | .clock => (0, t)
  | .stat f => ((), { t with stat := f t.stat })
  | .setInput p => ((), t.touch (streamPeer b src) (t.gpio.setInput p))
  | .setOutput p => ((), t.touch (streamPeer b src) (t.gpio.setOutput p))
  | .clearSel r => ((), t.touch (streamPeer b src) (t.gpio.clearSel r))
  | .set v => ((), t.touch (streamPeer b src) (t.gpio.set v))
  | .clr v => ((), t.touch (streamPeer b src) (t.gpio.clr v))

theorem streamAnswer_act (src : Option (Nat → BitVec b.width)) (lowers : Bool) (o : Op)
    (s : World (StreamPeer b)) : ∃ t, (sys (streamPeer b src)).Drift s t ∧
      (sys (streamPeer b src)).act o t (streamAnswer b src lowers o s).1
      (streamAnswer b src lowers o s).2 := by
  have move : ∀ d, (sys (streamPeer b src)).Drift ⟨s.gpio, s.stat, d⟩
      ⟨s.gpio, s.stat, d.eager b src lowers s.gpio⟩ := by
    intro d
    rcases d.eager_step b src lowers s.gpio with h | h
    · rw [h]
      exact .refl
    · exact .single ⟨_, h, rfl⟩
  refine ⟨_, (move s.dev).trans (move _), ?_⟩
  cases o with
  | get => exact ⟨StreamPeer.reading_level b src _ _, rfl⟩
  | _ => rfl

/-- An open transaction of mk2 before its first word. -/
def firstWord (out : Bool) : World (StreamPeer .mk2) := ⟨openPins out, World.start.stat, ⟨.ready, [], 0⟩⟩

def fourBytes : Mem := fun i => BitVec.ofNat 8 (0x11 * (i + 1))

/-- Two words to a prompt peer. -/
theorem streaming_prompt : ∃ t, (sys (streamPeer .mk2 none)).Run
    (ficHlsSendBytes .mk2 1 fourBytes 4, firstWord true) (ret 0, t) ∧
      SentExactly fourBytes 4 (firstWord true).dev t.dev := by
  have hrun := follow_ret (streamAnswer_act .mk2 none true) 200 (p := ficHlsSendBytes .mk2 1 fourBytes 4)
    (s := firstWord true) (a := 0) (by decide +kernel)
  refine ⟨_, hrun, ((streaming_iff 1 rfl rfl).1 fourBytes 4 openPins_between hrun).2 ?_⟩
  decide +kernel

/-- Two words to a peer that is slow to lower FACK: only the first one arrives, and both directions
return 0. -/
theorem streaming_loses :
    (¬ ∀ (data : Mem) (size : Nat) (s t : World (StreamPeer .mk2)),
      Between .mk2 s.gpio → s.dev.phase = .ready →
      (sys (streamPeer .mk2 none)).Run (ficHlsSendBytes .mk2 1 data size, s) (ret 0, t) →
      SentExactly data size s.dev t.dev) ∧
    ¬ ∀ (f : Nat → BitVec Board.mk2.width) (buf buf' : Mem) (size : Nat) (s t : World (StreamPeer .mk2)),
      Listening .mk2 false s.gpio → s.dev.phase = .ready →
      (sys (streamPeer .mk2 (some f))).Run (ficHlsReceiveBytes .mk2 1 buf size, s) (ret (0, buf'), t) →
      ReceivedExactly buf' size s.dev t.dev := by
  constructor
  · intro hall
    have hrun := follow_ret (streamAnswer_act .mk2 none false) 200 (p := ficHlsSendBytes .mk2 1 fourBytes 4)
      (s := firstWord true) (a := 0) (by decide +kernel)
    have hexact := hall fourBytes 4 (firstWord true) _ openPins_between rfl hrun
    have hone : (follow (streamAnswer .mk2 none false) 200 (ficHlsSendBytes .mk2 1 fourBytes 4)
        (firstWord true)).2.dev.words.length = 1 := by
      decide +kernel
    rw [hexact] at hone
    exact absurd hone (by decide)
  · intro hall
    let f : Nat → BitVec Board.mk2.width := fun k => BitVec.ofNat 16 k
    obtain ⟨⟨r, buf'⟩, hans, rfl⟩ := Option.map_eq_some_iff.1
        (show (follow (streamAnswer .mk2 (some f) false) 200
      (ficHlsReceiveBytes .mk2 1 fourBytes 4) (firstWord false)).1.answer?.map Prod.fst =
        some 0 by decide +kernel)
    have hrun := follow_ret (streamAnswer_act .mk2 (some f) false) 200 hans
    have hexact := hall f fourBytes buf' 4 (firstWord false) _ openPins_listening rfl hrun
    have hone : (follow (streamAnswer .mk2 (some f) false) 200 (ficHlsReceiveBytes .mk2 1 fourBytes 4)
        (firstWord false)).2.dev.words.length = 1 := by
      decide +kernel
    rw [hexact] at hone
    have htwo : ((firstWord false).dev.words ++ byteWords .mk2 (bytesOf buf' 0 4)).length = 2 := rfl
    rw [htwo] at hone
    exact absurd hone (by decide)

end Libfic2
