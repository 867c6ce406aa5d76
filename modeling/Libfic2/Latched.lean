import Libfic2.Strobes

/-!
# Peers that take a word at the strobe

A `WordMachine` says what a peer makes of a word and of the end of a transaction, and which word it
places on the data pins.  `latched m` is the peer: it takes the word on the data pins at the moment of
the strobe and notices the moment when RREQ falls.  FACK, FREQ and all other pins read anything, so
that any wait of the library may end or time out.

The triples below hold for every end of a call, failed ones included.

* `wp_opening`, `wp_inside`, `wp_silent`: the three kinds of parts of a call: up to RREQ, with RREQ up, and
  without a strobe
* `wp_latchedInitiate`, `wp_latchedSendBytes`: which words the machine has got when the call returns
* `latchedSource`: a machine that places words is a `Source`
* `wp_latchedSend`, `wp_latchedWrite`: the words of whole transfers
* `wp_latchedReset`, `wp_latchedCommand`: `fic_comm_reset` sends none, `fic_hls_start` and
  `fic_hls_reset` one
-/

namespace Libfic2

open Driver Prog Sys Line

/-- What a peer does with the words of the bus. -/
structure WordMachine (b : Board) (M : Type) where
  strobe : M → BitVec b.width → M
  release : M → M
  out : M → Option (BitVec b.width)
  release_release : ∀ x, release (release x) = release x

variable {b : Board} {M : Type} (m : WordMachine b M)

namespace WordMachine

/-- After the words `ws`. -/
def after (x : M) (ws : List (BitVec b.width)) : M := ws.foldl m.strobe x

theorem after_append (x : M) (ws ws' : List (BitVec b.width)) :
    m.after x (ws ++ ws') = m.after (m.after x ws) ws' :=
  List.foldl_append

end WordMachine

/-- The machine behind the bus. -/
def latched : Device M where
  level g x v := ∀ w ∈ m.out x, ∀ p, dataPin b p = true → g.fn p = 0#3 →
    v.getLsbD p = w.getLsbD (p - b.rpDataLow)
  seen g g' x :=
    if strobeEdge b g g' then m.strobe x (g'.bus 0#32 b.rpDataLow b.width)
    else if releaseEdge b g g' then m.release x
    else x
  env _ _ _ := False

variable {m}

theorem latched_still : (latched m).Still := fun _ _ _ h => h

/-- An operation that leaves the pins. -/
theorem latched_same (g : Gpio) (x : M) : (latched m).seen g g x = x := by
  have h1 : strobeEdge b g g = false := by
    unfold strobeEdge
    cases g.high b.rpRstb <;> rfl
  have h2 : releaseEdge b g g = false := by
    unfold releaseEdge
    cases g.high b.rpRreq <;> rfl
  show (if strobeEdge b g g then _ else if releaseEdge b g g then _ else x) = x
  simp [h1, h2]

/-! ## Between transactions -/

variable (m) in
/-- Either a transaction may be open, or the machine has noticed the end of the last one. -/
def Settled (g : Gpio) (x : M) : Prop := g.high b.rpRreq = true ∨ m.release x = x

theorem Settled.seen {g : Gpio} {x : M} (h : Settled m g x) (g' : Gpio) :
    Settled m g' ((latched m).seen g g' x) := by
  unfold Settled latched
  dsimp only
  by_cases hstrobe : strobeEdge b g g' = true
  · -- a strobe comes with RREQ up
    left
    unfold strobeEdge at hstrobe
    simp_all
  · rw [if_neg hstrobe]
    by_cases hrel : releaseEdge b g g' = true
    · right
      rw [if_pos hrel, m.release_release]
    · rw [if_neg hrel]
      rcases h with h | h
      · left
        unfold releaseEdge at hrel
        rwa [h, Bool.true_and, Bool.not_eq_true', Bool.not_eq_false] at hrel
      · exact .inr h

/-- With RREQ down the machine is between two transactions. -/
theorem Settled.released {g : Gpio} {x : M} (h : Settled m g x) (hreq : g.high b.rpRreq = false) :
    m.release x = x := by
  rcases h with h | h
  · rw [hreq] at h
    cases h
  · exact h

variable (m) in
theorem settled_keeps : KeepsOps (sys (latched m)) (fun _ => True) fun t => Settled m t.gpio t.dev where
  act o s a s' _ ha hs := by
    cases o with
    | get =>
      obtain ⟨-, rfl⟩ := ha
      exact hs
    | time =>
      obtain rfl := ha
      exact hs
    | clock =>
      obtain rfl := ha
      exact hs
    | stat f =>
      obtain rfl := ha
      exact hs
    | _ =>
      obtain rfl := ha
      exact hs.seen _
  env s s' he _ := by
    obtain ⟨d, hd, -⟩ := he
    exact hd.elim

theorem wp_settled {α : Type} {Q : α → World M → Prop} {p : P α} {s : World M} (hs : Settled m s.gpio s.dev)
    (h : wp (sys (latched m)) anyTime Q p s) :
    wp (sys (latched m)) anyTime (fun a t => Q a t ∧ Settled m t.gpio t.dev) p s :=
  wp_weaken (wp_and h (wp_of_ops (settled_keeps m) (ops_true p) hs)) fun _ _ => trivial

/-! ## The words of a run -/

/-- The words strobed by the operations of `l`, from the pins `g` on. -/
def strobesOf (b : Board) (g : Gpio) : List Ev → List (BitVec b.width)
  | [] => []
  | e :: l =>
    if strobeEdge b g (e.1.pins g) then (e.1.pins g).bus 0#32 b.rpDataLow b.width ::
      strobesOf b (e.1.pins g) l
    else strobesOf b (e.1.pins g) l

/-- The pins and the machine after an operation. -/
def latchedNext (m : WordMachine b M) (o : Op) (x : Gpio × M) : Gpio × M :=
  (o.pins x.1, (latched m).seen x.1 (o.pins x.1) x.2)

def latchedAfter (m : WordMachine b M) (x : Gpio × M) (l : List Ev) : Gpio × M :=
  l.foldl (fun x e => latchedNext m e.1 x) x

theorem strobesOf_append (g : Gpio) (l l' : List Ev) :
    strobesOf b g (l ++ l') = strobesOf b g l ++ strobesOf b (g.after l) l' := by
  induction l generalizing g with
  | nil => rfl
  | cons e l ih =>
    show strobesOf b g (e :: (l ++ l')) = strobesOf b g (e :: l) ++ strobesOf b ((e.1.pins g).after l) l'
    rw [strobesOf, strobesOf, ih]
    split <;> rfl

/-- The words that a `Line` lists. -/
theorem next_words (s : Line b) (e : Ev) : (s.next e).words.map Prod.fst =
    (if strobeEdge b s.pins (e.1.pins s.pins) then [(e.1.pins s.pins).bus 0#32 b.rpDataLow b.width]
    else []) ++
      s.words.map Prod.fst := by
  obtain ⟨o, a⟩ := e
  have hsame : strobeEdge b s.pins s.pins = false := by
    unfold strobeEdge
    cases s.pins.high b.rpRstb <;> rfl
  have hquiet : ∀ o : Op, o.pins s.pins = s.pins →
      (if strobeEdge b s.pins (o.pins s.pins) then [(o.pins s.pins).bus 0#32 b.rpDataLow b.width]
      else []) ++
        s.words.map Prod.fst = s.words.map Prod.fst := by
    intro o ho
    rw [ho, hsame]
    rfl
  cases o with
  | get =>
    rw [hquiet .get rfl]
    show (if s.up then { s with words := mark (a.getLsbD b.rpFack) s.words } else s).words.map Prod.fst = _
    split
    · show (mark _ s.words).map Prod.fst = _
      cases s.words <;> rfl
    · rfl
  | time => exact (hquiet .time rfl).symm
  | clock => exact (hquiet .clock rfl).symm
  | stat f => exact (hquiet (.stat f) rfl).symm
  | _ =>
    show (s.touch _).words.map Prod.fst = _
    unfold Line.touch
    split <;> rfl

theorem after_words (s : Line b) (l : List Ev) :
    (s.after l).words.map Prod.fst = (strobesOf b s.pins l).reverse ++ s.words.map Prod.fst := by
  induction l generalizing s with
  | nil => rfl
  | cons e l ih =>
    show ((s.next e).after l).words.map Prod.fst = _
    rw [ih, next_words, next_pins, strobesOf]
    split
    · rw [List.reverse_cons, List.append_assoc]
    · rfl

/-- The words of a run, from what a `Line` that begins with it lists. -/
theorem strobesOf_of_words {g : Gpio} {l : List Ev} (sent : List (BitVec b.width × Bool))
    (h : ((Line.start (b := b) g).after l).words = sent.reverse) : strobesOf b g l = sent.map Prod.fst := by
  have hwords := after_words (Line.start (b := b) g) l
  rw [h, show (Line.start (b := b) g).words = [] from rfl, List.map_nil, List.append_nil,
    List.map_reverse] at hwords
  exact (List.reverse_inj.1 hwords).symm

theorem latchedAfter_pins (g : Gpio) (x : M) (l : List Ev) : (latchedAfter m (g, x) l).1 = g.after l := by
  induction l generalizing g x with
  | nil => rfl
  | cons e l ih => exact ih _ _

theorem latchedAfter_append (x : Gpio × M) (l l' : List Ev) :
    latchedAfter m x (l ++ l') = latchedAfter m (latchedAfter m x l) l' := List.foldl_append

theorem Settled.after {g : Gpio} {x : M} (h : Settled m g x) (l : List Ev) :
    Settled m (g.after l) (latchedAfter m (g, x) l).2 := by
  induction l generalizing g x with
  | nil => exact h
  | cons e l ih => exact ih (h.seen _)

/-- A run takes the machine along. -/
theorem latched_run {α : Type} {p : P α} {s t : World M} {a : α}
    (hr : (sys (latched m)).Run (p, s) (ret a, t)) :
    ∃ l, Ends p l a ∧ (t.gpio, t.dev) = latchedAfter m (s.gpio, s.dev) l := by
  refine run_ends (fun t : World M => (t.gpio, t.dev)) (latchedNext m) ?_ ?_ hr
  · intro o t c t' ha
    cases o with
    | get =>
      obtain ⟨-, rfl⟩ := ha
      exact Prod.ext rfl (latched_same _ _).symm
    | time =>
      obtain rfl := ha
      exact Prod.ext rfl (latched_same _ _).symm
    | clock =>
      obtain rfl := ha
      exact Prod.ext rfl (latched_same _ _).symm
    | stat f =>
      obtain rfl := ha
      exact Prod.ext rfl (latched_same _ _).symm
    | _ =>
      obtain rfl := ha
      rfl
  · rintro t t' ⟨d, hd, -⟩
    exact hd.elim

/-! ## Parts of a call -/

/-- The operation leaves the pin `q` high. -/
def KeepsUp (q : Nat) : Op → Prop
  | .setInput p => p ≠ q
  | .clearSel _ => False
  | .clr v => v.getLsbD q = false
  | _ => True

section
variable {g : Gpio} {x : M} {l : List Ev}

theorem high_keepsUp {q : Nat} {o : Op} (ho : KeepsUp q o) (h : g.high q = true) :
    (o.pins g).high q = true := by
  unfold Gpio.high at h ⊢
  rw [Bool.and_eq_true] at h ⊢
  cases o with
  | setInput p => exact ⟨Gpio.isOut_setInput h.1 (Ne.symm ho), h.2⟩
  | setOutput p => exact ⟨Gpio.isOut_setOutput h.1 p, h.2⟩
  | clearSel r => exact ho.elim
  | set v =>
    show g.isOut q = true ∧ (g.set v).lat q = true
    rw [Gpio.lat_set, h.2]
    exact ⟨h.1, rfl⟩
  | clr v =>
    show g.isOut q = true ∧ (g.clr v).lat q = true
    rw [Gpio.lat_clr, h.2, show v.getLsbD q = false from ho]
    exact ⟨h.1, rfl⟩
  | _ => exact h

/-- With RREQ kept up the machine gets the words and nothing else. -/
theorem latchedAfter_up (hl : ∀ e ∈ l, KeepsUp b.rpRreq e.1) :
    (latchedAfter m (g, x) l).2 = m.after x (strobesOf b g l) := by
  induction l generalizing g x with
  | nil => rfl
  | cons e l ih =>
    have hrel : releaseEdge b g (e.1.pins g) = false := by
      unfold releaseEdge
      cases hup : g.high b.rpRreq with
      | false => rfl
      | true =>
        rw [high_keepsUp (hl e (List.mem_cons_self ..)) hup]
        rfl
    show (latchedAfter m (e.1.pins g, (latched m).seen g (e.1.pins g) x) l).2 = _
    rw [ih fun e' he' => hl e' (List.mem_cons_of_mem _ he'), strobesOf]
    show m.after (if strobeEdge b g (e.1.pins g) then _ else if releaseEdge b g
      (e.1.pins g) then _ else x) _ = _
    rw [hrel]
    split <;> rfl

/-- Without a strobe the machine may notice the end of a transaction. -/
theorem latchedAfter_silent (h : strobesOf b g l = []) :
    (latchedAfter m (g, x) l).2 = x ∨ (latchedAfter m (g, x) l).2 = m.release x := by
  induction l generalizing g x with
  | nil => exact .inl rfl
  | cons e l ih =>
    rw [strobesOf] at h
    split at h
    · cases h
    · next hno =>
      show (latchedAfter m (e.1.pins g, (latched m).seen g (e.1.pins g) x) l).2 = x ∨
        (latchedAfter m (e.1.pins g, (latched m).seen g (e.1.pins g) x) l).2 = m.release x
      have hseen : (latched m).seen g (e.1.pins g) x = x ∨
          (latched m).seen g (e.1.pins g) x = m.release x := by
        have heq : (latched m).seen g (e.1.pins g) x = if releaseEdge b g (e.1.pins g) then m.release x
            else x := if_neg hno
        rw [heq]
        split
        · exact .inr rfl
        · exact .inl rfl
      rcases hseen with hx | hx <;> rw [hx]
      · exact ih h
      · rcases ih (x := m.release x) h with h' | h'
        · exact .inr h'
        · exact .inr (h'.trans (m.release_release x))

end

section
variable {α : Type} {Q : α → World M → Prop} {s : World M}

/-- A part of a call that leaves RREQ up. -/
theorem wp_inside {p : P α} (hp : Ops (KeepsUp b.rpRreq) p)
    (h : ∀ l a t, Ends p l a → t.gpio = s.gpio.after l →
      t.dev = m.after s.dev (strobesOf b s.gpio l) → Q a t) : wp (sys (latched m)) anyTime Q p s := by
  refine wp_of_runs (fun _ _ _ => trivial) fun a t hr => ?_
  obtain ⟨l, he, ht⟩ := latched_run hr
  refine h l a t he ?_ ?_
  · rw [← latchedAfter_pins (m := m) s.gpio s.dev l, ← ht]
  · rw [← latchedAfter_up (m := m) (x := s.dev) (events_ops hp he), ← ht]

/-- A part of a call that strobes no word. -/
theorem wp_silent {p : P α} (hp : ∀ l a, Ends p l a → strobesOf b s.gpio l = [])
    (h : ∀ l a t, Ends p l a → t.gpio = s.gpio.after l → t.dev = s.dev ∨ t.dev = m.release s.dev → Q a t) :
    wp (sys (latched m)) anyTime Q p s := by
  refine wp_of_runs (fun _ _ _ => trivial) fun a t hr => ?_
  obtain ⟨l, he, ht⟩ := latched_run hr
  refine h l a t he ?_ ?_
  · rw [← latchedAfter_pins (m := m) s.gpio s.dev l, ← ht]
  · have hdev := latchedAfter_silent (m := m) (x := s.dev) (hp l a he)
    rwa [← ht] at hdev

/-- A call up to the moment when RREQ goes down again: `fic_comm_setup` ends a transaction that an
earlier call has left open. -/
theorem wp_opening {fuel : Nat} {k : Int → P α} (hs : Settled m s.gpio s.dev)
    (hk : ∀ r, Ops (KeepsUp b.rpRreq) (k r))
    (h : ∀ l a t, Ends (ficCommSetup b fuel >>= k) l a → t.gpio = s.gpio.after l →
      t.dev = m.after (m.release s.dev) (strobesOf b s.gpio l) → Q a t) :
    wp (sys (latched m)) anyTime Q (ficCommSetup b fuel >>= k) s := by
  refine wp_of_runs (fun _ _ _ => trivial) fun a t hr => ?_
  obtain ⟨l, he, ht⟩ := latched_run hr
  have hpins : t.gpio = s.gpio.after l := by
    rw [← latchedAfter_pins (m := m) s.gpio s.dev l, ← ht]
  refine h l a t he hpins ?_
  obtain ⟨r, l1, l2, rfl, h1, h2⟩ := ends_bind.1 he
  have hsetup : strobesOf b s.gpio l1 = [] ∧ (s.gpio.after l1).high b.rpRreq = false := by
    have hend : ∃ A : Gpio → Prop, (∀ g, A g → g.high b.rpRreq = false) ∧
        At A false [] ((Line.start (b := b) s.gpio).after l1) := by
      rcases at_ficCommSetup (s := Line.start (b := b) s.gpio) rfl h1 with ⟨-, hat⟩ | ⟨-, hat⟩
      · exact ⟨_, fun g hg => high_of_low (hg.1 _ (commPin_iff.2 (.inl rfl))), hat⟩
      · exact ⟨_, fun _ hg => hg, hat⟩
    obtain ⟨A, hA, hat⟩ := hend
    refine ⟨strobesOf_of_words [] hat.words, ?_⟩
    have hlow := hA _ hat.pins
    rwa [after_pins] at hlow
  have hdev : (latchedAfter m (s.gpio, s.dev) l1).2 = m.release s.dev := by
    have hset := (hs.after l1).released hsetup.2
    rcases latchedAfter_silent (m := m) (x := s.dev) hsetup.1 with hx | hx
    · rw [← hset, hx]
    · exact hx
  have hmid : latchedAfter m (s.gpio, s.dev) l1 = (s.gpio.after l1, m.release s.dev) :=
    Prod.ext (latchedAfter_pins _ _ _) hdev
  rw [strobesOf_append, hsetup.1, List.nil_append,
    ← latchedAfter_up (m := m) (events_ops (hk r) h2), ← hmid, ← latchedAfter_append, ← ht]

end

/-! ## What leaves RREQ up -/

section
variable (b) (fuel : Nat)

theorem up_ficSetGpio (v : BitVec 32) : Ops (KeepsUp b.rpRreq) (ficSetGpio fuel v) :=
  ops_bind (ops_call _ trivial) fun _ => ops_pollTimed fuel trivial trivial _

theorem up_ficClrGpio {v : BitVec 32} (hv : v.getLsbD b.rpRreq = false) :
    Ops (KeepsUp b.rpRreq) (ficClrGpio fuel v) :=
  ops_bind (ops_call _ hv) fun _ => ops_pollTimed fuel trivial trivial _

theorem up_ficSetGpioFast (v : BitVec 32) : Ops (KeepsUp b.rpRreq) (ficSetGpioFast fuel v) :=
  ops_bind (ops_call _ trivial) fun _ => ops_spin fuel trivial _

theorem up_ficClrGpioFast {v : BitVec 32} (hv : v.getLsbD b.rpRreq = false) :
    Ops (KeepsUp b.rpRreq) (ficClrGpioFast fuel v) :=
  ops_bind (ops_call _ hv) fun _ => ops_spin fuel trivial _

theorem rreq_rstb : (rpPin b.rpRstb).getLsbD b.rpRreq = false := by
  cases b <;> decide

theorem rreq_sendMask : (sendMask b).getLsbD b.rpRreq = false := by
  cases b <;> decide

theorem up_ficCommSend (bus : BitVec 32) : Ops (KeepsUp b.rpRreq) (ficCommSend b fuel bus) := by
  refine ops_check (up_ficClrGpio b fuel (rreq_sendMask b)) ?_
  refine ops_check (up_ficSetGpio b fuel _) ?_
  refine ops_check (ops_pollTimed fuel trivial trivial _) ?_
  refine ops_check (up_ficClrGpio b fuel (rreq_rstb b)) ?_
  exact ops_check (ops_pollTimed fuel trivial trivial _) trivial

theorem up_ficCommSetaddr (addr : BitVec 16) : Ops (KeepsUp b.rpRreq) (ficCommSetaddr b fuel addr) := by
  cases b with
  | mk1 =>
    exact ops_check (up_ficCommSend _ _ _) <| ops_check (up_ficCommSend _ _ _) <|
      ops_check (up_ficCommSend _ _ _) <|
      ops_check (up_ficCommSend _ _ _) trivial
  | mk2 => exact ops_check (up_ficCommSend _ _ _) trivial

theorem up_ficCommPortdir (dir : CommPortDir) : Ops (KeepsUp b.rpRreq) (ficCommPortdir b dir) := by
  have hne : ∀ i, b.rpDataLow ≤ i → i < b.rpDataLow + b.width → i ≠ b.rpRreq := fun i h1 h2 =>
    dataPin_ne (dataPin_iff.2 ⟨h1, h2⟩) board_apart.1
  cases dir with
  | snd =>
      exact ops_forDo _ _ fun i h1 h2 => ops_bind (ops_call _ (hne i h1 h2)) fun _ => ops_call _ trivial
  | rcv => exact ops_forDo _ _ fun i h1 h2 => ops_call _ (hne i h1 h2)

theorem up_ficCommSendFast (bus : BitVec 32) : Ops (KeepsUp b.rpRreq) (ficCommSendFast b fuel bus) := by
  refine ops_bind (up_ficClrGpio b fuel (rreq_sendMask b)) fun _ => ?_
  refine ops_bind (up_ficSetGpioFast b fuel _) fun _ => ?_
  refine ops_bind (ops_pollCounted trivial _ _) fun _ => ?_
  exact ops_bind (up_ficClrGpioFast b fuel (rreq_rstb b)) fun _ => trivial

theorem up_ficHlsSendBytes (data : Mem) (size : Nat) :
    Ops (KeepsUp b.rpRreq) (ficHlsSendBytes b fuel data size) := by
  have hwords : ∀ (ws : List (BitVec b.width)) (r : Int),
      Ops (KeepsUp b.rpRreq) (sendWords b fuel ws r) := by
    intro ws
    induction ws with
    | nil => exact fun _ => trivial
    | cons w ws ih => exact fun r => ops_bind (up_ficCommSendFast b fuel _) fun _ => ih _
  rw [ficHlsSendBytes_eq]
  split
  · trivial
  · refine ops_bind (hwords _ _) fun r => ?_
    split <;> trivial

theorem up_ficCommReceiveFast (rcv : BitVec 32) :
    Ops (KeepsUp b.rpRreq) (ficCommReceiveFast b fuel rcv) := by
  refine ops_bind (up_ficClrGpioFast b fuel (rreq_rstb b)) fun _ =>
    ops_bind (up_ficSetGpioFast b fuel _) fun _ =>
    ops_bind (ops_pollCounted trivial _ _) fun _ => ?_
  dsimp only
  split
  · trivial
  · exact ops_bind (ops_forDo _ _ fun _ _ _ => ops_bind (ops_call _ trivial) fun _ => trivial) fun _ =>
      ops_bind (ops_call _ trivial) fun _ =>
        ops_bind (up_ficClrGpioFast b fuel (rreq_rstb b)) fun _ => trivial

theorem up_ficHlsReceiveBytes (buf : Mem) (size : Nat) :
    Ops (KeepsUp b.rpRreq) (ficHlsReceiveBytes b fuel buf size) := by
  have hround : Ops (KeepsUp b.rpRreq) (receiveRound b fuel) := by
    cases b with
    | mk1 =>
      refine ops_bind (up_ficCommReceiveFast _ _ _) fun r1 => ?_
      dsimp only
      split
      · trivial
      · exact ops_bind (up_ficCommReceiveFast _ _ _) fun r2 => trivial
    | mk2 => exact ops_bind (up_ficCommReceiveFast _ _ _) fun r1 => trivial
  have hrounds : ∀ n i m, Ops (KeepsUp b.rpRreq) (receiveRounds b fuel n i m) := by
    intro n
    induction n with
    | zero => exact fun _ _ => trivial
    | succ n ih =>
      intro i m
      refine ops_bind hround fun r => ?_
      split
      · trivial
      · exact ih _ _
  rw [ficHlsReceiveBytes_eq]
  split
  · trivial
  · refine ops_bind (hrounds _ _ _) fun r => ?_
    split <;> trivial

end

/-! ## Transfers -/

section
variable {s : World M} (fuel : Nat)

/-- `_fic_hls_comm_initiate`: the machine has got the command and the address, or the first of these
words. -/
theorem wp_latchedInitiate (cmd : RasioCmd) (hs : Settled m s.gpio s.dev) :
    wp (sys (latched m)) anyTime
      (fun r t =>
        (r = -1 ∧ ∃ ws, ws <+: headWords b cmd ∧ t.dev = m.after (m.release s.dev) ws) ∨
          (r = 0 ∧ Initiated b cmd t.gpio ∧ t.dev = m.after (m.release s.dev) (headWords b cmd)))
      (ficHlsCommInitiate b fuel cmd) s := by
  have hrest : Ops (KeepsUp b.rpRreq) (do
      when (cmd == .read) (ficCommPortdir b .rcv)
      ret 0 : P Int) := ops_bind (ops_when fun _ => up_ficCommPortdir b .rcv) fun _ => trivial
  refine wp_opening hs (fun r => ?_) fun l r t he hpins hdev => ?_
  · split
    · trivial
    · exact ops_bind (up_ficCommPortdir b .snd) fun _ => ops_check (up_ficSetGpio b fuel _) <|
        ops_check (up_ficCommSend b fuel _) <| ops_check (up_ficCommSetaddr b fuel _) hrest
  · rw [hdev]
    rcases at_ficHlsCommInitiate (s := Line.start (b := b) s.gpio) rfl he
      with ⟨rfl, -, hat⟩ | ⟨-, ⟨rfl, hpart⟩ | ⟨rfl, hat⟩⟩
    · rw [strobesOf_of_words [] hat.words]
      exact .inl ⟨rfl, [], List.nil_prefix, rfl⟩
    · obtain ⟨sent, hwords, hpre, -⟩ := hpart
      rw [strobesOf_of_words sent (hwords.trans (List.append_nil _))]
      exact .inl ⟨rfl, _, hpre, rfl⟩
    · have hat' := hat.pins
      rw [after_pins] at hat'
      rw [strobesOf_of_words (acked (headWords b cmd)) (hat.words.trans (List.append_nil _)),
        acked_words, hpins]
      exact .inr ⟨rfl, hat', rfl⟩

/-- `_fic_hls_send_bytes`: the machine has got all words, whether they were acknowledged or not. -/
theorem wp_latchedSendBytes (data : Mem) (size : Nat) (hs : Between b s.gpio) :
    wp (sys (latched m)) anyTime
      (fun r t => (r = -1 ∨ (r = 0 ∧ refused b size = false)) ∧ Between b t.gpio ∧
        t.dev = m.after s.dev (dataWords b data size))
      (ficHlsSendBytes b fuel data size) s := by
  refine wp_inside (up_ficHlsSendBytes b fuel data size) fun l r t he hpins hdev => ?_
  obtain ⟨sent, hwords, hat, -, hr⟩ :=
    at_ficHlsSendBytes (s := Line.start (b := b) s.gpio) ⟨hs, rfl, rfl⟩ he
  have hat' := hat.pins
  rw [after_pins] at hat'
  rw [hdev, hpins, strobesOf_of_words sent (hat.words.trans (List.append_nil _)), hwords]
  refine ⟨?_, hat', rfl⟩
  rcases hr with ⟨hr, -⟩ | hr
  · refine .inr ⟨hr, ?_⟩
    -- a refused call returns -1
    by_contra hno
    rw [ficHlsSendBytes_eq, if_pos (by simpa using hno)] at he
    rw [hr] at he
    exact absurd he.2 (by decide)
  · exact .inl hr

/-- With RSTB down and RREQ up nothing happens. -/
theorem latched_armed {g g' : Gpio} {x : M} (h : Armed b g') : (latched m).seen g g' x = x := by
  show (if strobeEdge b g g' then _ else if releaseEdge b g g' then _ else x) = x
  rw [strobeEdge_armed h, releaseEdge_armed h]
  rfl

/-- The word that the machine has placed at a strobe is what the library receives. -/
theorem latched_received {I : List (BitVec b.width) → M → Prop}
    (hI : ∀ l x w, I l x → ∃ u, m.out (m.strobe x w) = some u ∧ I (l ++ [u]) (m.strobe x w))
    (l : List (BitVec b.width)) :
    ∃ X1 X2, WordReceived b (latched m) (I l) X1 X2 fun u => I (l ++ [u]) := by
  let X : BitVec b.width → M → Prop := fun u x => m.out x = some u ∧ I (l ++ [u]) x
  refine ⟨fun x => ∃ u, X u x, X, ⟨fun _ _ _ _ _ h => h.elim, fun g g' x _ h' hx => ?_⟩,
    fun g g' x h h' hx => ?_, fun _ _ _ _ _ h => h.elim, fun _ _ _ _ h _ _ => h,
    fun _ _ _ _ _ _ h => h.elim,
    fun u g x v h hx hv => ?_, fun u g g' x h h' hx => ?_, fun _ _ _ _ _ _ h => h.elim⟩
  · rwa [latched_armed h']
  · show ∃ u, X u (if strobeEdge b g g' then m.strobe x (g'.bus 0#32 b.rpDataLow b.width) else _)
    rw [h.strobeEdge h', if_pos rfl]
    exact hI l x _ hx
  · apply BitVec.eq_of_getLsbD_eq
    intro j hj
    have hp : dataPin b (b.rpDataLow + j) = true := by rw [dataPin_iff]; omega
    have hpin := hv u hx.1 _ hp (h.inputs _ hp)
    rw [Nat.add_sub_cancel_left] at hpin
    unfold busBits
    rw [BitVec.getLsbD_setWidth, BitVec.getLsbD_ushiftRight, decide_eq_true hj, Bool.true_and]
    exact hpin
  · show I (l ++ [u]) ((latched m).seen g g' x)
    rw [latched_armed h'.armed]
    exact hx.2

/-- A machine that places a word at every strobe, whatever is on the pins; `I l` after the words `l`. -/
def latchedSource (I : List (BitVec b.width) → M → Prop)
    (hI : ∀ l x w, I l x → ∃ u, m.out (m.strobe x w) = some u ∧ I (l ++ [u]) (m.strobe x w)) :
    Source b (latched m) where
  ready := I
  received := latched_received hI

/-- An end of a transaction. -/
theorem strobesOf_lowers {g : Gpio} {l : List Ev} (hl : ∀ e ∈ l, Lowers e.1) : strobesOf b g l = [] :=
  strobesOf_of_words [] (lowers_after (s := Line.start (b := b) g) rfl hl).2

theorem lowers_setAllInput : Ops Lowers setAllInput := ops_setAllInput fun _ => trivial

/-- RREQ down, FREQ down, SET_ALL_INPUT. -/
theorem lowers_close (v : BitVec 32) {α : Type} (e a : α) :
    Ops Lowers (checkOr e (ficClrGpio fuel v) <| checkOr e (ficCommWaitFreqDown b fuel) <| do
      setAllInput
      ret a) :=
  ops_checkOr (ops_bind (ops_call _ trivial) fun _ => ops_pollTimed fuel trivial trivial _) <|
    ops_checkOr (ops_pollTimed fuel trivial trivial _) <| ops_bind lowers_setAllInput fun _ => trivial

theorem wp_lowers {α : Type} {p : P α} (hp : Ops Lowers p) :
    wp (sys (latched m)) anyTime (fun _ t => t.dev = s.dev ∨ t.dev = m.release s.dev) p s :=
  wp_silent (fun _ _ he => strobesOf_lowers (events_ops hp he)) fun _ _ _ _ _ h => h

/-- `_fic_hls_comm_terminate` at the end of a call. -/
theorem wp_latchedClose {α : Type} (e a : α) :
    wp (sys (latched m)) anyTime (fun r t => (r = e ∨ r = a) ∧ (t.dev = s.dev ∨ t.dev = m.release s.dev))
      (checkOr e (ficHlsCommTerminate b fuel) (ret a)) s := by
  have hlow : Ops Lowers (checkOr e (ficHlsCommTerminate b fuel) (ret a)) :=
    ops_checkOr (e := e) (lowers_close fuel _ (-1) 0) (k := ret a) trivial
  have hans : wp (sys (latched m)) anyTime (fun r _ => r = e ∨ r = a)
      (checkOr e (ficHlsCommTerminate b fuel) (ret a)) s :=
    wp_checkOr (wp_mono (wp_anyEnd _ s) fun _ t _ _ =>
      ⟨fun _ => wp_failed t fun _ => .inl rfl, fun _ => wp_failed t fun _ => .inr rfl⟩)
  exact wp_weaken (wp_and hans (wp_lowers hlow)) fun _ _ => trivial

variable (m) in
/-- Of the words `ws` of a transaction a call that returned `r` has sent all, or the first ones. -/
def Transferred (x : M) (ws : List (BitVec b.width)) (ok : Prop) (r : Int) (y : M) : Prop :=
  ∃ sent, (y = m.after (m.release x) sent ∨ y = m.release (m.after (m.release x) sent)) ∧
    ((r = 0 ∧ ok ∧ sent = ws) ∨ (r = -1 ∧ sent <+: ws))

/-- `fic_hls_send` -/
theorem wp_latchedSend (data : Mem) (size : Nat) (hs : Settled m s.gpio s.dev) :
    wp (sys (latched m)) anyTime
      (fun r t => Transferred m s.dev (headWords b .write ++ dataWords b data size)
      (refused b size = false) r t.dev) (ficHlsSend b fuel data size) s := by
  refine wp_checkOr (wp_mono (wp_latchedInitiate fuel .write hs) fun r t _ ht => ?_)
  rcases ht with ⟨rfl, ws, hws, hdev⟩ | ⟨rfl, hpins, hdev⟩
  · refine ⟨fun _ => ?_, fun hno => absurd (by decide) hno⟩
    exact wp_retStill latched_still trivial ⟨ws, .inl hdev, .inr ⟨rfl, hws.trans (List.prefix_append _ _)⟩⟩
  refine ⟨fun hno => absurd hno (by decide), fun _ => ?_⟩
  refine wp_checkOr (wp_mono (wp_latchedSendBytes fuel data size hpins) fun r u _ hu => ?_)
  obtain ⟨hr, -, hdev'⟩ := hu
  rw [hdev, ← WordMachine.after_append] at hdev'
  refine ⟨fun _ => ?_, fun hpos => ?_⟩
  · exact wp_retStill latched_still trivial ⟨_, .inl hdev', .inr ⟨rfl, List.prefix_rfl⟩⟩
  · have hok : refused b size = false := hr.elim (fun h => absurd (by rw [h]; decide) hpos) And.right
    refine wp_mono (wp_latchedClose fuel (-1) 0) fun r v _ hv => ?_
    rw [hdev'] at hv
    exact ⟨_, hv.2, hv.1.elim (fun h => .inr ⟨h, List.prefix_rfl⟩) fun h => .inl ⟨h, hok, rfl⟩⟩

/-- `fic_hls_write` -/
theorem wp_latchedWrite (data : Mem) (size : Nat) (addr ctrl : BitVec 32) (hs : Settled m s.gpio s.dev) :
    wp (sys (latched m)) anyTime
      (fun r t => Transferred m s.dev
      (headWords b .write ++ dataWords b (cmdBytes ctrl addr size) 12 ++ dataWords b data size)
        (refused b size = false) r t.dev)
      (ficHlsWrite b fuel data size addr ctrl) s := by
  refine wp_checkOr (wp_mono (wp_latchedInitiate fuel .write hs) fun r t _ ht => ?_)
  rcases ht with ⟨rfl, ws, hws, hdev⟩ | ⟨rfl, hpins, hdev⟩
  · refine ⟨fun _ => ?_, fun hno => absurd (by decide) hno⟩
    refine wp_retStill latched_still trivial ⟨ws, .inl hdev, .inr ⟨rfl, hws.trans ?_⟩⟩
    rw [List.append_assoc]
    exact List.prefix_append _ _
  refine ⟨fun hno => absurd hno (by decide), fun _ => ?_⟩
  refine wp_checkOr (wp_mono (wp_latchedSendBytes fuel _ 12 hpins) fun r u _ hu => ?_)
  obtain ⟨-, hpins', hdev'⟩ := hu
  rw [hdev, ← WordMachine.after_append] at hdev'
  refine ⟨fun _ => ?_, fun _ => ?_⟩
  · exact wp_retStill latched_still trivial ⟨_, .inl hdev', .inr ⟨rfl, List.prefix_append _ _⟩⟩
  refine wp_checkOr (wp_mono (wp_latchedSendBytes fuel data size hpins') fun r v _ hv => ?_)
  obtain ⟨hr, -, hdev2⟩ := hv
  rw [hdev', ← WordMachine.after_append] at hdev2
  refine ⟨fun _ => ?_, fun hpos => ?_⟩
  · exact wp_retStill latched_still trivial ⟨_, .inl hdev2, .inr ⟨rfl, List.prefix_rfl⟩⟩
  · have hok : refused b size = false := hr.elim (fun h => absurd (by rw [h]; decide) hpos) And.right
    refine wp_mono (wp_latchedClose fuel (-1) 0) fun r w _ hw => ?_
    rw [hdev2] at hw
    exact ⟨_, hw.2, hw.1.elim (fun h => .inr ⟨h, List.prefix_rfl⟩) fun h => .inl ⟨h, hok, rfl⟩⟩

/-! ## Commands -/

/-- With RREQ down RSTB is no strobe. -/
theorem high_set_rstb {g : Gpio} (h : g.high b.rpRreq = false) :
    (g.set (rpPin b.rpRstb)).high b.rpRreq = false := by
  have hne : (rpPin b.rpRstb).getLsbD b.rpRreq = false := rreq_rstb b
  unfold Gpio.high at h ⊢
  rw [Gpio.isOut_set, Gpio.lat_set, hne, Bool.or_false]
  exact h

theorem reset_silent {g : Gpio} {l : List Ev} {r : Int} (he : Ends (ficCommReset b fuel) l r) :
    strobesOf b g l = [] := by
  have hdown : ∀ o : Op, Lowers o → ∀ g : Gpio, g.high b.rpRreq = false →
      (o.pins g).high b.rpRreq = false := by
    intro o ho g hg
    cases hup : (o.pins g).high b.rpRreq with
    | false => rfl
    | true => exact (high_lowers ho hup).symm.trans hg
  obtain ⟨r1, l1, l', rfl, h1, he1⟩ := ends_bind.1 he
  have hsetup : At (fun g => g.high b.rpRreq = false) false [] ((Line.start (b := b) g).after l1) := by
    rcases at_ficCommSetup (s := Line.start (b := b) g) rfl h1 with ⟨-, hat⟩ | ⟨-, hat⟩
    · exact ⟨high_of_low (hat.pins.1 _ (commPin_iff.2 (.inl rfl))), hat.up, hat.words⟩
    · exact hat
  refine strobesOf_of_words [] ?_
  rw [line_append]
  split at he1
  · rw [he1.1]
    exact hsetup.words
  obtain ⟨r2, l2, l', rfl, h2, he2⟩ := ends_bind.1 he1
  have hclr : At (fun g => g.high b.rpRreq = false) false []
      (((Line.start (b := b) g).after l1).after l2) :=
    at_ficClrGpio hsetup (fun g hg => hdown (.clr (rpPin b.rpRreq)) trivial g hg) h2
  rw [line_append]
  split at he2
  · rw [he2.1]
    exact hclr.words
  obtain ⟨r3, l3, l', rfl, h3, he3⟩ := ends_bind.1 he2
  obtain ⟨u, l4, rfl, hpoll⟩ := ends_callBind.1 h3
  have hset : At (fun g => g.high b.rpRreq = false) false []
      (((Line.start (b := b) g).after l1).after l2 |>.next ⟨.set (rpPin b.rpRstb), u⟩) := by
    refine at_op hclr fun g hg => ⟨high_set_rstb hg, strobeEdge_calm (.inl (high_set_rstb hg))⟩
  have hend := at_reads hset (events_ops (reads_pollTimed _) hpoll)
  have hlast : l' = [] := by
    split at he3 <;> exact he3.1
  subst hlast
  rw [List.append_nil]
  exact hend.words

/-- `fic_comm_reset` -/
theorem wp_latchedReset :
    wp (sys (latched m)) anyTime (fun _ t => t.dev = s.dev ∨ t.dev = m.release s.dev)
      (ficCommReset b fuel) s :=
  wp_silent (fun _ _ he => reset_silent fuel he) fun _ _ _ _ _ h => h

/-- A call up to the moment when RREQ goes down again, `p` after RREQ. -/
def opening (b : Board) (fuel : Nat) (p : P Int) : P Int :=
  check (ficCommSetup b fuel) <| do
  ficCommPortdir b .snd
  check (ficSetGpio fuel (rpPin b.rpRreq)) p

theorem check_opening (p k : P Int) : check (opening b fuel p) k = opening b fuel (check p k) := by
  unfold opening
  rw [check_check, check_bind]
  simp only [check_check]

/-- The machine has got the words that `p` sends, or the first of them. -/
theorem wp_latchedPuts {p : P Int} {ws : List (BitVec b.width)}
    (hup : Ops (KeepsUp b.rpRreq) p) (hp : Puts p ws) (hs : Settled m s.gpio s.dev) :
    wp (sys (latched m)) anyTime
      (fun r t =>
        (r = -1 ∧ ∃ sent, sent <+: ws ∧ t.dev = m.after (m.release s.dev) sent) ∨
          (r = 0 ∧ Between b t.gpio ∧ t.dev = m.after (m.release s.dev) ws))
      (opening b fuel p) s := by
  refine wp_opening hs (fun r => ?_) fun l r t he hpins hdev => ?_
  · split
    · trivial
    · exact ops_bind (up_ficCommPortdir b .snd) fun _ => ops_check (up_ficSetGpio b fuel _) hup
  rw [hdev]
  obtain ⟨r1, l1, l', rfl, h1, he1⟩ := ends_bind.1 he
  rcases at_ficCommSetup (s := Line.start (b := b) s.gpio) rfl h1 with ⟨rfl, hat⟩ | ⟨rfl, hat⟩
  · obtain ⟨_, l2, l', rfl, h2, he2⟩ := ends_bind.1 he1
    obtain ⟨r3, l3, l', rfl, h3, he3⟩ := ends_bind.1 he2
    have hraised := at_raise (at_portdirSnd hat h2) h3
    split at he3
    · obtain ⟨rfl, rfl⟩ := he3
      rw [strobesOf_of_words [] (by rw [line_append, line_append, List.append_nil]; exact hraised.words)]
      exact .inl ⟨rfl, [], List.nil_prefix, rfl⟩
    · rcases hp _ _ _ _ he3 hraised with ⟨rfl, hend⟩ | ⟨rfl, sent, hwords, hpre, -⟩
      · rw [strobesOf_of_words (acked ws)
          (by rw [line_append, line_append, line_append]; exact hend.words.trans (List.append_nil _)),
          acked_words]
        have hbetween := hend.pins
        rw [← line_append, ← line_append, ← line_append, after_pins] at hbetween
        exact .inr ⟨rfl, hpins ▸ hbetween, rfl⟩
      · rw [strobesOf_of_words sent
          (by rw [line_append, line_append, line_append]; exact hwords.trans (List.append_nil _))]
        exact .inl ⟨rfl, _, hpre, rfl⟩
  · obtain ⟨rfl, rfl⟩ := he1
    rw [List.append_nil, strobesOf_of_words [] hat.words]
    exact .inl ⟨rfl, [], List.nil_prefix, rfl⟩

theorem hlsCommand_eq (cmd : RasioCmd) : hlsCommand b fuel cmd =
    check (opening b fuel (check (ficCommSend b fuel (cmd.code <<< b.rpDataLow)) (ret 0)))
      (check (ficClrGpio fuel (rpPin b.rpRreq)) <| check (ficCommWaitFreqDown b fuel) <| do
        setAllInput
        ret 0) := by
  rw [check_opening, check_check]
  rfl

/-- `fic_hls_start` and `fic_hls_reset`: the machine has got the command, or nothing. -/
theorem wp_latchedCommand (cmd : RasioCmd) (hs : Settled m s.gpio s.dev) :
    wp (sys (latched m)) anyTime
      (fun _ t => ∃ sent, sent <+: [cmdBits b cmd] ∧
        (t.dev = m.after (m.release s.dev) sent ∨ t.dev = m.release (m.after (m.release s.dev) sent)))
      (hlsCommand b fuel cmd) s := by
  rw [hlsCommand_eq]
  have hup : Ops (KeepsUp b.rpRreq) (check (ficCommSend b fuel (cmd.code <<< b.rpDataLow)) (ret 0)) :=
    ops_check (up_ficCommSend b fuel _) trivial
  have hputs := puts_check (puts_ficCommSend fuel _ (cmd_busWord b cmd)) puts_ret
  refine wp_checkOr (wp_mono (wp_latchedPuts fuel hup hputs hs) fun r t _ ht => ?_)
  rcases ht with ⟨rfl, ws, hws, hdev⟩ | ⟨rfl, -, hdev⟩
  · exact ⟨fun _ => wp_retStill latched_still trivial ⟨ws, hws, .inl hdev⟩,
      fun hno => absurd (by decide) hno⟩
  · refine ⟨fun hno => absurd hno (by decide), fun _ => ?_⟩
    refine wp_mono (wp_lowers (lowers_close fuel _ (-1) 0)) fun r u _ hu => ⟨_, List.prefix_rfl, ?_⟩
    rwa [hdev] at hu

end

/-! ## A schedule -/

/-- FACK follows RSTB, FREQ is low, the data pins are as the machine has them, the other pins as in the
latch. -/
def latchedLevels (m : WordMachine b M) (g : Gpio) (x : M) : BitVec 32 :=
  ofBits (fun p =>
    if p = b.rpFack then g.lat b.rpRstb
    else if p = b.rpFreq then false
    else if dataPin b p && g.fn p == 0#3 then ((m.out x).getD 0).getLsbD (p - b.rpDataLow)
    else g.lat p) 32

theorem latchedLevels_level (m : WordMachine b M) (g : Gpio) (x : M) :
    (latched m).level g x (latchedLevels m g x) := by
  have hb := board_pins (b := b)
  have ha := board_apart (b := b)
  intro w hout p hp hf
  have hlt := dataPin_iff.1 hp
  unfold latchedLevels
  rw [getLsbD_ofBits, decide_eq_true (show p < 32 by omega), Bool.true_and,
    if_neg (dataPin_ne hp ha.2.2.2.1), if_neg (dataPin_ne hp ha.2.2.1), hp, hf, hout]
  rfl

/-- The clock stands still. -/
def latchedAnswer (m : WordMachine b M) (o : Op) (s : World M) : Ans o × World M :=
  match o with
  | .get => (latchedLevels m s.gpio s.dev, s)
  | .time => (0, s)
  | .clock => (0, s)
  | .stat f => ((), { s with stat := f s.stat })
  | .setInput p => ((), s.touch (latched m) (s.gpio.setInput p))
  | .setOutput p => ((), s.touch (latched m) (s.gpio.setOutput p))
  | .clearSel r => ((), s.touch (latched m) (s.gpio.clearSel r))
  | .set v => ((), s.touch (latched m) (s.gpio.set v))
  | .clr v => ((), s.touch (latched m) (s.gpio.clr v))

theorem latchedAnswer_act (m : WordMachine b M) (o : Op) (s : World M) :
    ∃ t, (sys (latched m)).Drift s t ∧
      (sys (latched m)).act o t (latchedAnswer m o s).1 (latchedAnswer m o s).2 := by
  refine ⟨s, .refl, ?_⟩
  cases o with
  | get => exact ⟨latchedLevels_level m s.gpio s.dev, rfl⟩
  | _ => rfl

end Libfic2
