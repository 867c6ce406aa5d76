import Libfic2.BusRelease
import Libfic2.HlsWire

/-!
# The words of a run

A `Line` follows the pins through the events of a run.  It lists the words strobed, each with the level
of FACK that was read last while RSTB was up: a word is acknowledged when FACK was up then.

* `at_ficCommSetup`, `at_ficHlsCommInitiate`: up to the end of set-up no word is strobed, whatever the
  pins were before
* `at_ficCommSendFast`: the word is acknowledged unless it is `Stalled`
* `at_sendWords`: the loop of `_fic_hls_send_bytes` strobes all its words, stalled or not
-/

namespace Libfic2

open Driver Prog

variable (b : Board) (fuel : Nat)

/-- The pins, whether RSTB is up with a word, and the words strobed, newest first, with the last
reading of FACK. -/
structure Line where
  pins : Gpio
  up : Bool
  words : List (BitVec b.width × Bool)

namespace Line

variable {b}

/-- The pins change to `g`. -/
def touch (s : Line b) (g : Gpio) : Line b :=
  if strobeEdge b s.pins g then ⟨g, true, (g.bus 0#32 b.rpDataLow b.width, false) :: s.words⟩
  else ⟨g, s.up && g.high b.rpRstb, s.words⟩

/-- FACK is read at level `c` while the newest word is up. -/
def mark (c : Bool) : List (BitVec b.width × Bool) → List (BitVec b.width × Bool)
  | (w, _) :: ws => (w, c) :: ws
  | [] => []

def next (s : Line b) : Ev → Line b
  | ⟨.get, v⟩ => if s.up then { s with words := mark (v.getLsbD b.rpFack) s.words } else s
  | ⟨.time, _⟩ => s
  | ⟨.clock, _⟩ => s
  | ⟨.stat _, _⟩ => s
  | ⟨o, _⟩ => s.touch (o.pins s.pins)

def after (s : Line b) (l : List Ev) : Line b := l.foldl next s

/-- Before a call. -/
def start (g : Gpio) : Line b := ⟨g, false, []⟩

theorem line_append (s : Line b) (l l' : List Ev) : s.after (l ++ l') = (s.after l).after l' :=
  List.foldl_append ..

theorem next_pins (s : Line b) (e : Ev) : (s.next e).pins = e.1.pins s.pins := by
  obtain ⟨o, a⟩ := e
  cases o with
  | get =>
    unfold next
    dsimp only
    split <;> rfl
  | time => rfl
  | clock => rfl
  | stat f => rfl
  | _ =>
    unfold next touch
    dsimp only
    split <;> rfl

theorem after_pins (s : Line b) (l : List Ev) : (s.after l).pins = s.pins.after l := by
  induction l generalizing s with
  | nil => rfl
  | cons e l ih =>
    show ((s.next e).after l).pins = (e.1.pins s.pins).after l
    rw [ih, next_pins]

/-- Between two words, an operation without a strobe. -/
theorem next_idle {s : Line b} {o : Op} {a : Ans o} (hup : s.up = false)
    (hno : strobeEdge b s.pins (o.pins s.pins) = false) :
    s.next ⟨o, a⟩ = ⟨o.pins s.pins, false, s.words⟩ := by
  have hsame : s = ⟨s.pins, false, s.words⟩ := by rw [← hup]
  cases o with
  | get =>
    show (if s.up then _ else s) = _
    rw [hup]
    exact hsame
  | time => exact hsame
  | clock => exact hsame
  | stat f => exact hsame
  | _ =>
    unfold next touch
    dsimp only
    rw [hno, hup, Bool.false_and]
    rfl

/-- Words have been added to `old`, and the one that is up is not of `old`. -/
def Grown (old : List (BitVec b.width × Bool)) (s : Line b) : Prop :=
  ∃ ws, s.words = ws ++ old ∧ (s.up = true → ws ≠ [])

theorem Grown.touch {old : List (BitVec b.width × Bool)} {s : Line b} (h : Grown old s) (g : Gpio) :
    Grown old (s.touch g) := by
  obtain ⟨ws, hws, hup⟩ := h
  unfold Line.touch
  split
  · exact ⟨_ :: ws, by rw [hws]; rfl, fun _ => List.cons_ne_nil _ _⟩
  · exact ⟨ws, hws, fun h => hup (Bool.and_eq_true_iff.1 h).1⟩

theorem Grown.next {old : List (BitVec b.width × Bool)} {s : Line b} (h : Grown old s) (e : Ev) :
    Grown old (s.next e) := by
  obtain ⟨o, a⟩ := e
  cases o with
  | get =>
    show Grown old (if s.up then { s with words := mark (a.getLsbD b.rpFack) s.words } else s)
    split
    · next hup =>
      obtain ⟨ws, hws, hne⟩ := h
      obtain ⟨e, ws', rfl⟩ := List.exists_cons_of_ne_nil (hne hup)
      exact ⟨(e.1, a.getLsbD b.rpFack) :: ws', by rw [hws]; rfl, fun _ => List.cons_ne_nil _ _⟩
    · exact h
  | time => exact h
  | clock => exact h
  | stat f => exact h
  | _ => exact h.touch _

/-- Words are added to the list, not taken from it. -/
theorem after_grows {s : Line b} (hup : s.up = false) (l : List Ev) : Grown s.words (s.after l) := by
  have key : ∀ (l : List Ev) (t : Line b), Grown s.words t → Grown s.words (t.after l) := by
    intro l
    induction l with
    | nil => exact fun t h => h
    | cons e l ih => exact fun t h => ih _ (h.next e)
  refine key l s ⟨[], rfl, fun h => ?_⟩
  rw [hup] at h
  cases h

/-- `s` at pins of which `A` holds. -/
structure At (A : Gpio → Prop) (c : Bool) (ws : List (BitVec b.width × Bool)) (s : Line b) : Prop where
  pins : A s.pins
  up : s.up = c
  words : s.words = ws

end Line

open Line

/-! ## Reading, and lowering pins -/

/-- An operation that reads. -/
def Reads : Op → Prop
  | .get => True
  | .time => True
  | _ => False

/-- An operation that raises no pin. -/
def Lowers : Op → Prop
  | .setOutput _ => False
  | .set _ => False
  | _ => True

theorem Reads.lowers {o : Op} (h : Reads o) : Lowers o := by
  cases o with
  | setOutput p => exact h.elim
  | set v => exact h.elim
  | _ => trivial

section
variable {b fuel} {α : Type} {p : P α} {l : List Ev} {a : α} {s : Line b} {A A' : Gpio → Prop}
    {c : Bool} {w : BitVec b.width}
  {f : Bool} {ws : List (BitVec b.width × Bool)} {r : Int}

/-- The operations of a trace. -/
theorem events_ops {Pr : Op → Prop} (hp : Ops Pr p) (he : Ends p l a) : ∀ e ∈ l, Pr e.1 := by
  induction p generalizing l with
  | ret c =>
    rw [he.1]
    exact nofun
  | op o k ih =>
    obtain ⟨c, l', rfl, he'⟩ := he
    intro e hmem
    rcases List.mem_cons.1 hmem with rfl | hmem
    · exact hp.1
    · exact ih c (hp.2 c) he' e hmem
  | hang => exact he.elim

theorem reads_pollTimed (c : BitVec 32 → Bool) : Ops Reads (pollTimed fuel c) :=
  ops_pollTimed fuel trivial trivial c
theorem reads_spin (c : BitVec 32 → Bool) : Ops Reads (spin fuel c) := ops_spin fuel trivial c

theorem high_lowers {o : Op} (ho : Lowers o) {g : Gpio} {q : Nat} (h : (o.pins g).high q = true) :
    g.high q = true := by
  unfold Gpio.high Gpio.isOut at h ⊢
  rw [Bool.and_eq_true] at h ⊢
  cases o with
  | setInput p =>
    rw [Op.pins, Gpio.fn_setInput] at h
    split at h
    · exact absurd h.1 (by decide)
    · exact h
  | clearSel r =>
    rw [Op.pins, Gpio.fn_clearSel] at h
    split at h
    · exact absurd h.1 (by decide)
    · exact h
  | clr v =>
    rw [Op.pins, Gpio.lat_clr, Bool.and_eq_true] at h
    exact ⟨h.1, h.2.1⟩
  | setOutput p => exact ho.elim
  | set v => exact ho.elim
  | _ => exact h

theorem strobeEdge_lowers {o : Op} (ho : Lowers o) (g : Gpio) : strobeEdge b g (o.pins g) = false := by
  unfold strobeEdge
  cases hup : (o.pins g).high b.rpRstb with
  | false => rfl
  | true =>
    rw [high_lowers ho hup]
    rfl

theorem lowers_after (hup : s.up = false) (hl : ∀ e ∈ l, Lowers e.1) :
    (s.after l).up = false ∧ (s.after l).words = s.words := by
  induction l generalizing s with
  | nil => exact ⟨hup, rfl⟩
  | cons e l ih =>
    have hnext : s.next e = ⟨e.1.pins s.pins, false, s.words⟩ :=
      next_idle hup (strobeEdge_lowers (hl e (List.mem_cons_self ..)) _)
    have hrest := ih (s := s.next e) (by rw [hnext]) fun e' h' => hl e' (List.mem_cons_of_mem _ h')
    exact ⟨hrest.1, by rw [show (s.after (e :: l)) = (s.next e).after l from rfl, hrest.2, hnext]⟩

theorem pins_reads (g : Gpio) (hl : ∀ e ∈ l, Reads e.1) : g.after l = g := by
  induction l with
  | nil => rfl
  | cons e l ih =>
    have hsame : e.1.pins g = g := by
      obtain ⟨o, a⟩ := e
      have ho : Reads o := hl _ (List.mem_cons_self ..)
      cases o with
      | get => rfl
      | time => rfl
      | _ => exact ho.elim
    show (e.1.pins g).after l = g
    rw [hsame]
    exact ih fun e' h' => hl e' (List.mem_cons_of_mem _ h')

/-- Between two words, readings are not noticed. -/
theorem at_reads (h : At A false ws s) (hl : ∀ e ∈ l, Reads e.1) : At A false ws (s.after l) := by
  obtain ⟨hup, hwords⟩ := lowers_after h.up fun e he => (hl e he).lowers
  refine ⟨?_, hup, hwords.trans h.words⟩
  rw [after_pins, pins_reads _ hl]
  exact h.pins

/-- While a word is up, FACK is noticed. -/
theorem at_getUp (h : At A true ((w, f) :: ws) s) (v : BitVec 32) :
    At A true ((w, v.getLsbD b.rpFack) :: ws) (s.next ⟨.get, v⟩) := by
  have hnext : s.next ⟨.get, v⟩ = { s with words := mark (v.getLsbD b.rpFack) s.words } := if_pos h.up
  rw [hnext]
  exact ⟨h.pins, h.up, by rw [h.words]; rfl⟩

theorem at_readsUp (h : At A true ((w, f) :: ws) s) (hl : ∀ e ∈ l, Reads e.1) :
    ∃ f', At A true ((w, f') :: ws) (s.after l) := by
  induction l generalizing s f with
  | nil => exact ⟨f, h⟩
  | cons e l ih =>
    obtain ⟨o, a⟩ := e
    have ho : Reads o := hl _ (List.mem_cons_self ..)
    have htail : ∀ e ∈ l, Reads e.1 := fun e' h' => hl e' (List.mem_cons_of_mem _ h')
    cases o with
    | get => exact ih (s := s.next ⟨.get, a⟩) (at_getUp h a) htail
    | time => exact ih (s := s) h htail
    | _ => exact ho.elim

/-! ## Setting and clearing pins -/

/-- Between two words. -/
theorem at_op {o : Op} {a : Ans o} (h : At A false ws s)
    (hA : ∀ g, A g → A' (o.pins g) ∧ strobeEdge b g (o.pins g) = false) :
    At A' false ws (s.next ⟨o, a⟩) := by
  obtain ⟨hpins, hno⟩ := hA _ h.pins
  rw [next_idle h.up hno]
  exact ⟨hpins, rfl, h.words⟩

/-- `fic_clr_gpio` between two words. -/
theorem at_ficClrGpio {m : BitVec 32} (h : At A false ws s) (hA : ∀ g, A g → A' (g.clr m))
    (he : Ends (ficClrGpio fuel m) l r) : At A' false ws (s.after l) := by
  obtain ⟨u, l', rfl, hpoll⟩ := ends_callBind.1 he
  show At A' false ws ((s.next ⟨.clr m, u⟩).after l')
  refine at_reads (at_op h fun g hg => ⟨hA g hg, ?_⟩) (events_ops (reads_pollTimed _) hpoll)
  exact strobeEdge_lowers (o := .clr m) trivial g

/-- The register write that strobes `w`. -/
theorem at_strobe (h : At (Driving b 0#b.width false) false ws s) (u : Unit) :
    At (Driving b w true) true ((w, false) :: ws) (s.next ⟨.set (rpPin b.rpRstb ||| busWord b w), u⟩) := by
  have hsend := h.pins.send w
  have hnext : s.next ⟨.set (rpPin b.rpRstb ||| busWord b w), u⟩ =
      ⟨s.pins.set (rpPin b.rpRstb ||| busWord b w), true, (w, false) :: s.words⟩ := by
    show s.touch (s.pins.set (rpPin b.rpRstb ||| busWord b w)) = _
    unfold touch
    rw [if_pos (h.pins.strobeEdge hsend), hsend.bus 0#32]
  rw [hnext]
  exact ⟨hsend, rfl, by rw [h.words]⟩

/-- RSTB goes down. -/
theorem at_fall (h : At (Driving b w true) true ws s) (u : Unit) :
    At (Driving b w false) false ws (s.next ⟨.clr (rpPin b.rpRstb), u⟩) := by
  have hfall := h.pins.fall
  have hnext : s.next ⟨.clr (rpPin b.rpRstb), u⟩ = ⟨s.pins.clr (rpPin b.rpRstb), false, s.words⟩ := by
    have hno : strobeEdge b s.pins (s.pins.clr (rpPin b.rpRstb)) = false :=
      strobeEdge_lowers (o := .clr _) trivial _
    show s.touch (s.pins.clr (rpPin b.rpRstb)) = _
    unfold touch
    rw [hno, if_neg Bool.false_ne_true, hfall.strobe, Bool.and_false]
  rw [hnext]
  exact ⟨hfall, rfl, h.words⟩

/-! ## Waiting for FACK -/

theorem fack_up {v : BitVec 32} (hv : fackLow b v = false) : v.getLsbD b.rpFack = true := by
  have hb := board_pins (b := b)
  unfold fackLow at hv
  rwa [getPin_beq_zero v (by omega), Bool.not_eq_false'] at hv

theorem fack_down {v : BitVec 32} (hv : fackLow b v = true) : v.getLsbD b.rpFack = false := by
  have hb := board_pins (b := b)
  unfold fackLow at hv
  rwa [getPin_beq_zero v (by omega), Bool.not_eq_true'] at hv

/-- The wait of the fast functions ends in a mark that says how it ended. -/
theorem at_pollCounted {n : Nat} (h : At A true ((w, f) :: ws) s)
    (he : Ends (pollCounted (fackLow b) n) l r) :
    At A true ((w, decide (r = 0)) :: ws) (s.after l) := by
  induction n generalizing l s f with
  | zero =>
    obtain ⟨v, l', rfl, hend⟩ := ends_callBind.1 he
    have hread := at_getUp h v
    cases hv : fackLow b v with
    | true =>
      rw [hv] at hend
      obtain ⟨rfl, rfl⟩ := hend
      rwa [fack_down hv] at hread
    | false =>
      rw [hv] at hend
      obtain ⟨rfl, rfl⟩ := hend
      rwa [fack_up hv] at hread
  | succ n ih =>
    obtain ⟨v, l', rfl, hend⟩ := ends_callBind.1 he
    have hread := at_getUp h v
    cases hv : fackLow b v with
    | true =>
      rw [hv, if_pos rfl] at hend
      show At A true _ ((s.next ⟨.get, v⟩).after l')
      exact ih hread hend
    | false =>
      rw [hv] at hend
      obtain ⟨rfl, rfl⟩ := hend
      rwa [fack_up hv] at hread

/-- The wait of the slow functions, when it is answered in time. -/
theorem at_pollTimed (h : At A true ((w, f) :: ws) s)
    (he : Ends (pollTimed fuel (fackLow b)) l r) (hr : ¬ r < 0) :
    At A true ((w, true) :: ws) (s.after l) := by
  obtain ⟨t1, l', rfl, hloop⟩ := ends_callBind.1 he
  obtain ⟨l1, l2, rfl, hlast⟩ := ends_loop hloop
  have hreads : ∀ e ∈ l1 ++ l2, Reads e.1 := by
    refine events_ops (ops_loop ?_ fuel) hloop
    refine ops_bind (ops_call _ trivial) fun v => ?_
    split
    · refine ops_bind (ops_call _ trivial) fun t2 => ?_
      split <;> trivial
    · trivial
  obtain ⟨f', hlate⟩ := at_readsUp (s := s) h fun e he' => hreads e (List.mem_append_left _ he')
  obtain ⟨v, l3, rfl, hend⟩ := ends_callBind.1 hlast
  show At A true ((w, true) :: ws) (s.after (l1 ++ _))
  rw [line_append]
  have hread := at_getUp hlate v
  cases hv : fackLow b v with
  | true =>
    rw [hv] at hend
    obtain ⟨t2, l4, rfl, hstop⟩ := ends_callBind.1 hend
    split at hstop
    · obtain ⟨rfl, hsome⟩ := hstop
      rw [Option.some.inj hsome] at hr
      exact absurd (by decide) hr
    · cases hstop.2
  | false =>
    rw [hv] at hend
    obtain ⟨rfl, -⟩ := hend
    rwa [fack_up hv] at hread

end

/-! ## The word functions -/

section
variable {b} {l : List Ev} {s : Line b} {r : Int} {w : BitVec b.width} {c up f : Bool}
    {old : List (BitVec b.width × Bool)}
  {ws ws' : List (BitVec b.width)}

/-- Acknowledged words. -/
def acked (ws : List (BitVec b.width)) : List (BitVec b.width × Bool) := ws.map fun w => (w, true)

theorem acked_append (ws ws' : List (BitVec b.width)) : acked (ws ++ ws') = acked ws ++ acked ws' :=
  List.map_append

theorem acked_words (ws : List (BitVec b.width)) : (acked ws).map Prod.fst = ws := by
  unfold acked
  rw [List.map_map]
  exact List.map_id _

theorem acked_mem {e : BitVec b.width × Bool} (h : e ∈ acked ws) : e.2 = true := by
  obtain ⟨w, -, rfl⟩ := List.mem_map.1 h
  rfl

/-- Of the words `ws` the first ones have been strobed, and acknowledged but for the last; RREQ is
still up. -/
def Partial (ws : List (BitVec b.width)) (old : List (BitVec b.width × Bool)) (s : Line b) : Prop :=
  ∃ sent : List (BitVec b.width × Bool), s.words = sent.reverse ++ old ∧ sent.map Prod.fst <+: ws ∧
    (∀ e ∈ sent.dropLast, e.2 = true) ∧ s.pins.high b.rpRreq = true

theorem partial_none (h : s.pins.high b.rpRreq = true) (hw : s.words = old) : Partial ws old s :=
  ⟨[], hw, List.nil_prefix, nofun, h⟩

theorem partial_one (h : At (Driving b w c) up ((w, f) :: old) s) : Partial [w] old s :=
  ⟨[(w, f)], h.words, List.prefix_rfl, nofun, h.pins.rreq⟩

theorem Partial.mono (h : Partial ws old s) : Partial (ws ++ ws') old s := by
  obtain ⟨sent, hw, hpre, hack, hrreq⟩ := h
  exact ⟨sent, hw, hpre.trans (List.prefix_append ws ws'), hack, hrreq⟩

/-- Behind acknowledged words. -/
theorem dropLast_acked {sent sent' : List (BitVec b.width × Bool)} (h : ∀ e ∈ sent, e.2 = true) :
    (∀ e ∈ (sent ++ sent').dropLast, e.2 = true) ↔ ∀ e ∈ sent'.dropLast, e.2 = true := by
  by_cases hnil : sent' = []
  · subst hnil
    rw [List.append_nil]
    exact iff_of_true (fun e he => h e ((List.dropLast_sublist _).subset he)) nofun
  · rw [List.dropLast_append_of_ne_nil hnil]
    refine ⟨fun hall e he => hall e (List.mem_append_right _ he), fun hlast e he => ?_⟩
    exact (List.mem_append.1 he).elim (h e) (hlast e)

theorem Partial.after (h : Partial ws' ((acked ws).reverse ++ old) s) : Partial (ws ++ ws') old s := by
  obtain ⟨sent, hw, hpre, hack, hrreq⟩ := h
  refine ⟨acked ws ++ sent, ?_, ?_, (dropLast_acked fun e => acked_mem).2 hack, hrreq⟩
  · rw [hw, List.reverse_append, List.append_assoc]
  · rw [List.map_append, acked_words]
    exact (List.prefix_append_right_inj ws).2 hpre

/-- `p` sends the words `ws`, each acknowledged, or stops at one of them. -/
def Puts (p : P Int) (ws : List (BitVec b.width)) : Prop :=
  ∀ l r (s : Line b) old, Ends p l r → At (Between b) false old s →
    (r = 0 ∧ At (Between b) false ((acked ws).reverse ++ old) (s.after l)) ∨
    (r = -1 ∧ Partial ws old (s.after l))

theorem puts_ret : Puts (ret 0) ([] : List (BitVec b.width)) := by
  rintro l r s old ⟨rfl, rfl⟩ h
  exact .inl ⟨rfl, h⟩

/-- Either `p` stops, or what follows begins after its words. -/
theorem puts_then {p k : P Int} (hp : Puts p ws) (h : At (Between b) false old s)
    (he : Ends (check p k) l r) : (r = -1 ∧ Partial ws old (s.after l)) ∨
      ∃ l1 l2, l = l1 ++ l2 ∧ At (Between b) false ((acked ws).reverse ++ old) (s.after l1) ∧
        Ends k l2 r := by
  obtain ⟨r1, l1, l2, rfl, h1, h2⟩ := ends_bind.1 he
  rcases hp l1 r1 s old h1 h with ⟨rfl, hsent⟩ | ⟨rfl, hpart⟩
  · exact .inr ⟨l1, l2, rfl, hsent, h2⟩
  · obtain ⟨rfl, rfl⟩ := h2
    rw [List.append_nil]
    exact .inl ⟨rfl, hpart⟩

theorem puts_check {p q : P Int} (hp : Puts p ws) (hq : Puts q ws') : Puts (check p q) (ws ++ ws') := by
  intro l r s old he h
  rcases puts_then hp h he with ⟨hr, hpart⟩ | ⟨l1, l2, rfl, hsent, h2⟩
  · exact .inr ⟨hr, hpart.mono⟩
  · rw [line_append]
    rcases hq l2 r _ _ h2 hsent with ⟨hr, hend⟩ | ⟨hr, hpart⟩
    · refine .inl ⟨hr, ?_⟩
      rwa [acked_append, List.reverse_append, List.append_assoc]
    · exact .inr ⟨hr, hpart.after⟩

/-- `fic_comm_send` -/
theorem puts_ficCommSend (w : BitVec b.width) {bus : BitVec 32} (hbus : bus = busWord b w) :
    Puts (ficCommSend b fuel bus) [w] := by
  subst hbus
  intro l r s old he h
  obtain ⟨r1, l1, lr, rfl, h1, he1⟩ := ends_bind.1 he
  have hclear : At (Driving b 0#b.width false) false old (s.after l1) :=
    at_ficClrGpio h (fun g ⟨_, hg⟩ => hg.clear) h1
  rw [line_append]
  split at he1
  · obtain ⟨rfl, rfl⟩ := he1
    exact .inr ⟨rfl, partial_none hclear.pins.rreq hclear.words⟩
  obtain ⟨r2, l2, lr, rfl, h2, he2⟩ := ends_bind.1 he1
  obtain ⟨u, l2', rfl, hpoll⟩ := ends_callBind.1 h2
  obtain ⟨f, hup⟩ := at_readsUp (at_strobe hclear u) (events_ops (reads_pollTimed _) hpoll)
  rw [line_append]
  split at he2
  · obtain ⟨rfl, rfl⟩ := he2
    exact .inr ⟨rfl, partial_one hup⟩
  obtain ⟨r3, l3, lr, rfl, h3, he3⟩ := ends_bind.1 he2
  rw [line_append]
  split at he3
  · obtain ⟨rfl, rfl⟩ := he3
    obtain ⟨f', hlate⟩ := at_readsUp hup (events_ops (reads_pollTimed _) h3)
    exact .inr ⟨rfl, partial_one hlate⟩
  have hack := at_pollTimed hup h3 ‹_›
  obtain ⟨r4, l4, lr, rfl, h4, he4⟩ := ends_bind.1 he3
  obtain ⟨u', l4', rfl, hpoll'⟩ := ends_callBind.1 h4
  have hfall := at_reads (at_fall hack u') (events_ops (reads_pollTimed _) hpoll')
  rw [line_append]
  split at he4
  · obtain ⟨rfl, rfl⟩ := he4
    exact .inr ⟨rfl, partial_one hfall⟩
  obtain ⟨r5, l5, lr, rfl, h5, he5⟩ := ends_bind.1 he4
  have hdown := at_reads hfall (events_ops (reads_pollTimed _) h5)
  rw [line_append]
  split at he5
  · obtain ⟨rfl, rfl⟩ := he5
    exact .inr ⟨rfl, partial_one hdown⟩
  · obtain ⟨rfl, rfl⟩ := he5
    exact .inl ⟨rfl, ⟨_, hdown.pins⟩, hdown.up, hdown.words⟩

/-- `fic_comm_setaddr` -/
theorem puts_ficCommSetaddr (addr : BitVec 16) : Puts (ficCommSetaddr b fuel addr) (addrWords b addr) := by
  cases b with
  | mk1 =>
    refine puts_check (puts_ficCommSend fuel _ (nibble_busWord addr 3 (by decide))) ?_
    refine puts_check (puts_ficCommSend fuel _ (nibble_busWord addr 2 (by decide))) ?_
    refine puts_check (puts_ficCommSend fuel _ (nibble_busWord addr 1 (by decide))) ?_
    exact puts_check (puts_ficCommSend fuel _ (lowNibble_busWord addr)) puts_ret
  | mk2 => exact puts_check (puts_ficCommSend fuel _ (addr_busWord addr)) puts_ret

end

/-! ## Opening a transaction -/

section
variable {b fuel} {l : List Ev} {s : Line b} {r : Int} {ws : List (BitVec b.width × Bool)}

theorem at_forDo {A : Nat → Gpio → Prop} {body : Nat → P Unit} {lo n : Nat} (h : At (A lo) false ws s)
    (hbody : ∀ i (s : Line b) l, lo ≤ i → i < lo + n → At (A i) false ws s → Ends (body i) l () →
      At (A (i + 1)) false ws (s.after l))
    (he : Ends (forDo body lo n) l ()) : At (A (lo + n)) false ws (s.after l) := by
  induction n generalizing lo l s with
  | zero =>
    obtain ⟨rfl, -⟩ := he
    exact h
  | succ n ih =>
    obtain ⟨_, l1, l2, rfl, h1, h2⟩ := ends_bind.1 he
    rw [line_append, show lo + (n + 1) = lo + 1 + n by omega]
    exact ih (hbody lo s l1 (Nat.le_refl lo) (by omega) h h1)
      (fun i s l hi hn => hbody i s l (by omega) (by omega)) h2

theorem at_setAllInput (hup : s.up = false) (he : Ends setAllInput l ()) :
    At (SetBelow b 0) false s.words (s.after l) := by
  have hlow : Ops Lowers setAllInput := ops_setAllInput fun _ => trivial
  obtain ⟨hup', hwords⟩ := lowers_after hup (events_ops hlow he)
  refine ⟨⟨fun p hp => absurd hp (Nat.not_lt_zero p), fun p hp _ => ?_⟩, hup', hwords⟩
  rw [after_pins]
  exact (after_setAllInput he _).fn hp

theorem at_setInput {A A' : Gpio → Prop} {p : Nat} {l : List Ev} (h : At A false ws s)
    (hA : ∀ g, A g → A' (g.setInput p))
    (he : Ends (issue (.setInput p)) l ()) : At A' false ws (s.after l) := by
  obtain ⟨u, _, rfl, rfl, -⟩ := he
  show At A' false ws (s.next ⟨.setInput p, u⟩)
  exact at_op h fun g hg => ⟨hA g hg, strobeEdge_lowers (o := .setInput p) trivial g⟩

/-- A round of `fic_comm_setup`, whether it succeeds or not. -/
theorem at_setupRound {i : Nat} (hi : i < 30) (h : At (SetBelow b i) false ws s) (he : Ends (do
      when (i == b.rpFack || i == b.rpFreq) (issue (.setInput i))
      if commPin b i then do
        setInputOutput i
        check (ficClrGpio fuel (rpPin i)) (ret 0)
      else ret 0 : P Int) l r) : At (SetBelow b (i + 1)) false ws (s.after l) := by
  obtain ⟨_, l1, l2, rfl, hfirst, h2⟩ := ends_bind.1 he
  rw [line_append]
  have hinput : At (SetBelow b i) false ws (s.after l1) := by
    unfold when at hfirst
    split at hfirst
    · exact at_setInput h (fun g hg => hg.setInput) hfirst
    · rw [hfirst.1]
      exact h
  split at h2
  · next hc =>
    obtain ⟨_, l3, l4, rfl, hout, h4⟩ := ends_bind.1 h2
    obtain ⟨u, _, rfl, u', _, rfl, rfl, -⟩ := hout
    have hin : At (SetBelow b i) false ws ((s.after l1).next ⟨.setInput i, u⟩) :=
      at_op (o := .setInput i) hinput fun g hg =>
        ⟨hg.setInput, strobeEdge_lowers (o := .setInput i) trivial g⟩
    have hdrive : At (fun g => ∃ g', SetBelow b i g' ∧ g = g'.setOutput i) false ws
        (((s.after l1).next ⟨.setInput i, u⟩).next ⟨.setOutput i, u'⟩) :=
      at_op (o := .setOutput i) hin fun g hg => ⟨⟨g, hg, rfl⟩, strobeEdge_calm hg.setOutput_calm⟩
    obtain ⟨r1, l5, l6, rfl, hclr, hend⟩ := ends_bind.1 h4
    have hdone : At (SetBelow b (i + 1)) false ws _ :=
      at_ficClrGpio hdrive (fun g ⟨g', hg, he⟩ => he ▸ hg.drive hi hc) hclr
    obtain rfl := ends_answers hend
    rw [List.append_nil]
    exact hdone
  · next hc =>
    rw [h2.1]
    exact ⟨hinput.pins.skip (by simpa using hc), hinput.up, hinput.words⟩

theorem at_setupLoop {n i : Nat} (hi : i + n = gpioPinMax) (h : At (SetBelow b i) false ws s)
    (he : Ends (forEach (fun i => do
      when (i == b.rpFack || i == b.rpFreq) (issue (.setInput i))
      if commPin b i then do
        setInputOutput i
        check (ficClrGpio fuel (rpPin i)) (ret 0)
      else ret 0) i n) l r) :
    (r = 0 ∧ At (SetBelow b gpioPinMax) false ws (s.after l)) ∨
    (r = -1 ∧ At (fun g => g.high b.rpRreq = false) false ws (s.after l)) := by
  induction n generalizing i l s with
  | zero =>
    obtain ⟨rfl, rfl⟩ := he
    exact .inl ⟨rfl, hi ▸ h⟩
  | succ n ih =>
    obtain ⟨r1, l1, l2, rfl, h1, h2⟩ := ends_bind.1 he
    have hnext := at_setupRound (by simp at hi; omega) h h1
    rw [line_append]
    split at h2
    · obtain ⟨rfl, rfl⟩ := h2
      exact .inr ⟨rfl, hnext.pins.rreq, hnext.up, hnext.words⟩
    · exact ih (by omega) hnext h2

/-- `fic_comm_setup` strobes no word and leaves RREQ low, whether it succeeds or not. -/
theorem at_ficCommSetup (hup : s.up = false) (he : Ends (ficCommSetup b fuel) l r) :
    (r = 0 ∧ At (OpenBus b) false s.words (s.after l)) ∨
    (r = -1 ∧ At (fun g => g.high b.rpRreq = false) false s.words (s.after l)) := by
  obtain ⟨_, l1, l2, rfl, h1, h2⟩ := ends_bind.1 he
  rw [line_append]
  rcases at_setupLoop (Nat.zero_add _) (at_setAllInput hup h1) h2 with ⟨hr, h⟩ | h
  · exact .inl ⟨hr, h.pins.open, h.up, h.words⟩
  · exact .inr h

/-- `fic_comm_portdir(COMM_PORT_SND)` -/
theorem at_portdirSnd (h : At (OpenBus b) false ws s) (he : Ends (ficCommPortdir b .snd) l ()) :
    At (OpenBus b) false ws (s.after l) := by
  refine at_forDo (A := fun _ => OpenBus b) h (fun i s l hlo hhi h he => ?_) he
  have hq : dataPin b i = true := dataPin_iff.2 ⟨hlo, hhi⟩
  obtain ⟨u, _, rfl, u', _, rfl, rfl, -⟩ := he
  have hin : At (fun g => OpenBut b i g ∧ ∃ g' : Gpio, g = g'.setInput i) false ws
      (s.next ⟨.setInput i, u⟩) :=
    at_op h fun g hg => ⟨⟨hg.setInput hq, g, rfl⟩, strobeEdge_lowers (o := .setInput i) trivial g⟩
  have hout : At (OpenBus b) false ws ((s.next ⟨.setInput i, u⟩).next ⟨.setOutput i, u'⟩) := by
    refine at_op hin fun g hg => ?_
    obtain ⟨hbut, g', rfl⟩ := hg
    have hopen := hbut.setOutput hq
    exact ⟨hopen, strobeEdge_calm hopen.calm⟩
  exact hout

/-- `fic_comm_portdir(COMM_PORT_RCV)` -/
theorem at_portdirRcv (h : At (Between b) false ws s) (he : Ends (ficCommPortdir b .rcv) l ()) :
    At (Listening b false) false ws (s.after l) := by
  obtain ⟨w, hd⟩ := h.pins
  have hstart : At (Turning b b.rpDataLow) false ws s :=
    ⟨⟨hd.rreq, hd.rstb, hd.level, fun p hp hlt => absurd (dataPin_iff.1 hp).1 (by omega), hd.freq,
      hd.fack⟩, h.up, h.words⟩
  have hend := at_forDo (A := Turning b) hstart (fun i s l hlo hhi h he =>
    at_setInput h (fun g hg => hg.setInput (dataPin_iff.2 ⟨hlo, hhi⟩)) he) he
  have hpins := hend.pins
  exact ⟨⟨hpins.rreq, hpins.rstb, hpins.level, fun p hp => hpins.inputs p hp (dataPin_iff.1 hp).2,
    hpins.freq, hpins.fack⟩, hend.up, hend.words⟩

/-- Raising RREQ. -/
theorem at_raise (h : At (OpenBus b) false ws s) (he : Ends (ficSetGpio fuel (rpPin b.rpRreq)) l r) :
    At (Between b) false ws (s.after l) := by
  obtain ⟨u, l', rfl, hpoll⟩ := ends_callBind.1 he
  show At (Between b) false ws ((s.next ⟨.set (rpPin b.rpRreq), u⟩).after l')
  refine at_reads (at_op h fun g hg => ?_) (events_ops (reads_pollTimed _) hpoll)
  have hraise := hg.raise
  exact ⟨⟨_, hraise⟩, strobeEdge_armed hraise.armed⟩

/-- The waits of `fic_comm_setup`, in a run that begins with it. -/
theorem setup_settled {l : List Ev} (he : Ends (ficCommSetup b fuel) l r) :
    (r = 0 ∧ ∀ l', AllAnswered (setupWaits b) (readings (l ++ l'))) ∨
    (r = -1 ∧ ∀ l', ¬ AllAnswered (setupWaits b) (readings (l ++ l'))) := by
  rcases (polls_ficCommSetup b fuel).settled (fun r => ok_not_err) he with ⟨hr, hw⟩ | ⟨hr, hw⟩
  · refine .inl ⟨hr, fun l' => ?_⟩
    rw [AllAnswered, readings_append, hw]
    rfl
  · refine .inr ⟨hr, fun l' => ?_⟩
    rw [AllAnswered, readings_append, hw]
    decide

/-- The last statements of `_fic_hls_comm_initiate`. -/
theorem at_turn {cmd : RasioCmd} (h : At (Between b) false ws s) (he : Ends (do
      when (cmd == .read) (ficCommPortdir b .rcv)
      ret 0 : P Int) l r) : r = 0 ∧ At (Initiated b cmd) false ws (s.after l) := by
  obtain ⟨_, l1, l2, rfl, h1, rfl, rfl⟩ := ends_bind.1 he
  rw [List.append_nil]
  refine ⟨rfl, ?_⟩
  cases cmd with
  | read => exact at_portdirRcv h h1
  | _ =>
    obtain ⟨rfl, -⟩ := h1
    exact h

variable (b) in
/-- The words of `_fic_hls_comm_initiate`. -/
def headWords (cmd : RasioCmd) : List (BitVec b.width) := cmdBits b cmd :: addrWords b commAddrHls

/-- `_fic_hls_comm_initiate` fails in set-up, or later, or not at all. -/
theorem at_ficHlsCommInitiate {cmd : RasioCmd} (hup : s.up = false)
    (he : Ends (ficHlsCommInitiate b fuel cmd) l r) :
    (r = -1 ∧ (∀ l', ¬ AllAnswered (setupWaits b) (readings (l ++ l'))) ∧
        At (fun g => g.high b.rpRreq = false) false s.words (s.after l)) ∨
      (∀ l', AllAnswered (setupWaits b) (readings (l ++ l'))) ∧
        ((r = -1 ∧ Partial (headWords b cmd) s.words (s.after l)) ∨
          (r = 0 ∧ At (Initiated b cmd) false
          ((acked (headWords b cmd)).reverse ++ s.words) (s.after l))) := by
  obtain ⟨r1, l1, l2, rfl, hsetup, h2⟩ := ends_bind.1 he
  rcases at_ficCommSetup hup hsetup with ⟨rfl, hopen⟩ | ⟨rfl, hclosed⟩
  · refine .inr ⟨fun l' => ?_, ?_⟩
    · rcases setup_settled hsetup with ⟨-, hw⟩ | ⟨hr, -⟩
      · rw [List.append_assoc]
        exact hw _
      · exact absurd hr (by decide)
    obtain ⟨_, l3, l4, rfl, hdir, h4⟩ := ends_bind.1 h2
    obtain ⟨r5, l5, l6, rfl, hrreq, h6⟩ := ends_bind.1 h4
    have hraised := at_raise (at_portdirSnd hopen hdir) hrreq
    rw [line_append, line_append, line_append]
    split at h6
    · obtain ⟨rfl, rfl⟩ := h6
      exact .inl ⟨rfl, partial_none hraised.pins.armed.1 hraised.words⟩
    have hputs : Puts (ficCommSend b fuel (cmd.code <<< b.rpDataLow)) [cmdBits b cmd] :=
      puts_ficCommSend fuel _ (cmd_busWord b cmd)
    rcases puts_then hputs hraised h6 with ⟨hr, hpart⟩ | ⟨l7, l8, rfl, hsent, h8⟩
    · exact .inl ⟨hr, hpart.mono⟩
    rw [line_append]
    rcases puts_then (puts_ficCommSetaddr fuel commAddrHls) hsent h8
      with ⟨hr, hpart⟩ | ⟨l9, l10, rfl, haddr, h10⟩
    · exact .inl ⟨hr, hpart.after⟩
    obtain ⟨hr, hend⟩ := at_turn haddr h10
    rw [← List.append_assoc, ← List.reverse_append, ← acked_append] at hend
    rw [line_append]
    exact .inr ⟨hr, hend⟩
  · obtain ⟨rfl, rfl⟩ := h2
    refine .inl ⟨rfl, fun l' => ?_, ?_⟩
    · rcases setup_settled hsetup with ⟨hr, -⟩ | ⟨-, hw⟩
      · exact absurd hr (by decide)
      · rw [List.append_assoc]
        exact hw _
    · rwa [List.append_nil]

end

/-! ## Sending bytes -/

/-- In the run `l` of `fic_comm_send_fast(bus)` the wait for FACK is not answered in time. -/
def Stalled (bus : BitVec 32) (l : List Ev) : Prop :=
  ∃ l1 l2 l3 r1 r2, l = l1 ++ (l2 ++ l3) ∧ Ends (ficClrGpio fuel (sendMask b)) l1 r1 ∧
    Ends (ficSetGpioFast fuel (rpPin b.rpRstb ||| bus)) l2 r2 ∧
    ¬ AllAnswered [.counted (fackLow b) (commTimeoutNum + 1)] (readings l3)

/-- In the run `l` of the loop no word but the last is stalled. -/
def LastStalls : List (BitVec b.width) → List Ev → Prop
  | w :: w' :: ws, l => ∀ l1 l2 r, l = l1 ++ l2 → Ends (ficCommSendFast b fuel (busWord b w)) l1 r →
      ¬ Stalled b fuel (busWord b w) l1 ∧ LastStalls (w' :: ws) l2
  | _, _ => True

section
variable {b fuel} {l : List Ev} {s : Line b} {r r0 : Int} {w : BitVec b.width}
    {ws : List (BitVec b.width)} {old : List (BitVec b.width × Bool)}

/-- `fic_comm_send_fast` strobes its word in any case; it is acknowledged unless it is stalled. -/
theorem at_ficCommSendFast (h : At (Between b) false old s)
    (he : Ends (ficCommSendFast b fuel (busWord b w)) l r) :
    ∃ f, At (Between b) false ((w, f) :: old) (s.after l) ∧ (f = false ↔ Stalled b fuel (busWord b w) l) ∧
      ((r = 0 ∧ f = true) ∨ r = -1) := by
  obtain ⟨r1, l1, lr, rfl, h1, he1⟩ := ends_bind.1 he
  obtain ⟨r2, l2, lr, rfl, h2, he2⟩ := ends_bind.1 he1
  obtain ⟨r3, l3, lr, rfl, h3, he3⟩ := ends_bind.1 he2
  obtain ⟨r4, l4, lr, rfl, h4, hend⟩ := ends_bind.1 he3
  obtain ⟨rfl, rfl⟩ := hend
  have hclear : At (Driving b 0#b.width false) false old (s.after l1) :=
    at_ficClrGpio h (fun g ⟨_, hg⟩ => hg.clear) h1
  obtain ⟨u, l2', rfl, hspin⟩ := ends_callBind.1 h2
  obtain ⟨f, hup⟩ := at_readsUp (at_strobe hclear u) (events_ops (reads_spin _) hspin)
  have hack := at_pollCounted hup h3
  obtain ⟨u', l4', rfl, hspin'⟩ := ends_callBind.1 h4
  have hfall := at_reads (at_fall hack u') (events_ops (reads_spin _) hspin')
  refine ⟨decide (r3 = 0), ?_, ?_, ?_⟩
  · rw [line_append, line_append, line_append, List.append_nil]
    exact ⟨⟨_, hfall.pins⟩, hfall.up, hfall.words⟩
  · rcases (polls_pollCounted (fackLow b) (commTimeoutNum + 1)).settled (fun r => ok_not_err) h3
      with ⟨hok, hw⟩ | ⟨herr, hw⟩
    · refine iff_of_false (by rw [show r3 = 0 from hok]; decide) ?_
      rintro ⟨k1, k2, k3, q1, q2, heq, hk1, hk2, hno⟩
      obtain ⟨rfl, htail, -⟩ := ends_cancel h1 hk1 heq
      obtain ⟨rfl, rfl, -⟩ := ends_cancel h2 hk2 htail
      refine hno ?_
      rw [AllAnswered, readings_append, hw]
      rfl
    · refine iff_of_true (by rw [show r3 = -1 from herr]; decide) ⟨l1, _, _, r1, r2, rfl, h1, h2, ?_⟩
      rw [AllAnswered, readings_append, hw]
      decide
  · have hr4 : r4 = 0 := ((polls_ficClrGpioFast fuel _).answered h4).elim (fun h => h.1) fun h => h.1.elim
    have hr2 : r2 = 0 := ((polls_ficSetGpioFast fuel _).answered h2).elim (fun h => h.1) fun h => h.1.elim
    rcases (polls_pollCounted (fackLow b) (commTimeoutNum + 1)).answered h3 with ⟨hr3, -⟩ | ⟨hr3, -⟩
    · rcases (polls_ficClrGpio fuel _).answered h1 with ⟨hr1, -⟩ | ⟨hr1, -⟩
      · refine .inl ⟨?_, decide_eq_true hr3⟩
        rw [show r1 = 0 from hr1, hr2, show r3 = 0 from hr3, hr4]
        decide
      · refine .inr ?_
        rw [show r1 = -1 from hr1, intOr_neg_one_right, intOr_neg_one_left,
          intOr_neg_one_left, intOr_neg_one_left]
    · refine .inr ?_
      rw [show r3 = -1 from hr3, intOr_neg_one_right, intOr_neg_one_left]

theorem lastStalls_cons {w' : BitVec b.width} {l1 l2 : List Ev}
    (he : Ends (ficCommSendFast b fuel (busWord b w)) l1 r) :
    LastStalls b fuel (w :: w' :: ws) (l1 ++ l2) ↔ ¬ Stalled b fuel (busWord b w) l1 ∧
    LastStalls b fuel (w' :: ws) l2 := by
  refine ⟨fun h => h l1 l2 r rfl he, fun h k1 k2 r' heq he' => ?_⟩
  obtain ⟨rfl, rfl, -⟩ := ends_cancel he he' heq
  exact h

/-- The loop strobes all its words.  Those before the last are acknowledged when no word but the last
is stalled. -/
theorem at_sendWords (h : At (Between b) false old s) (he : Ends (sendWords b fuel ws r0) l r) :
    ∃ sent : List (BitVec b.width × Bool), sent.map Prod.fst = ws ∧
      At (Between b) false (sent.reverse ++ old) (s.after l) ∧
      (∀ rest, LastStalls b fuel ws (l ++ rest) ↔ ∀ e ∈ sent.dropLast, e.2 = true) ∧
      (r0 = 0 → (r = 0 ∧ ∀ e ∈ sent, e.2 = true) ∨ r = -1) := by
  induction ws generalizing l s r0 old with
  | nil =>
    obtain ⟨rfl, rfl⟩ := he
    exact ⟨[], rfl, h, fun _ => ⟨fun _ => nofun, fun _ => trivial⟩, fun hr => .inl ⟨hr, nofun⟩⟩
  | cons w ws ih =>
    obtain ⟨r1, l1, l2, rfl, h1, h2⟩ := ends_bind.1 he
    obtain ⟨f, hword, hstall, hr1⟩ := at_ficCommSendFast h h1
    obtain ⟨sent, hwords, hend, hlast, hall⟩ := ih hword h2
    refine ⟨(w, f) :: sent, by rw [List.map_cons, hwords], ?_, fun rest => ?_, fun hr0 => ?_⟩
    · rw [line_append, List.reverse_cons, List.append_assoc]
      exact hend
    · cases ws with
      | nil =>
        obtain rfl : sent = [] := List.map_eq_nil_iff.1 hwords
        exact ⟨fun _ => nofun, fun _ => trivial⟩
      | cons w' ws =>
        obtain ⟨e, sent', rfl⟩ : ∃ e sent', sent = e :: sent' :=
          List.exists_cons_of_ne_nil fun hnil => by rw [hnil] at hwords; cases hwords
        rw [List.append_assoc, lastStalls_cons h1, hlast rest, ← hstall, List.dropLast_cons_cons,
          List.forall_mem_cons, Bool.not_eq_false]
    · subst hr0
      rcases hr1 with ⟨rfl, rfl⟩ | rfl
      · exact (hall rfl).imp_left fun ⟨hr, hacked⟩ => ⟨hr, List.forall_mem_cons.2 ⟨rfl, hacked⟩⟩
      · rw [intOr_neg_one_right] at h2
        exact .inr (ends_sendWords b fuel h2)

/-- `_fic_hls_send_bytes` -/
theorem at_ficHlsSendBytes {data : Mem} {size : Nat} (h : At (Between b) false old s)
    (he : Ends (ficHlsSendBytes b fuel data size) l r) :
    ∃ sent : List (BitVec b.width × Bool), sent.map Prod.fst = dataWords b data size ∧
      At (Between b) false (sent.reverse ++ old) (s.after l) ∧
      (∀ rest, LastStalls b fuel (dataWords b data size) (l ++ rest) ↔ ∀ e ∈ sent.dropLast, e.2 = true) ∧
      ((r = 0 ∧ ∀ e ∈ sent, e.2 = true) ∨ r = -1) := by
  rw [ficHlsSendBytes_eq] at he
  split at he
  · next hno =>
    obtain ⟨rfl, rfl⟩ := he
    have hwords : dataWords b data size = [] := if_pos hno
    rw [hwords]
    exact ⟨[], rfl, h, fun _ => ⟨fun _ => nofun, fun _ => trivial⟩, .inr rfl⟩
  · obtain ⟨r1, l1, l2, rfl, h1, h2⟩ := ends_bind.1 he
    obtain ⟨sent, hwords, hend, hlast, hall⟩ := at_sendWords h h1
    split at h2
    · obtain ⟨rfl, rfl⟩ := h2
      rw [List.append_nil]
      exact ⟨sent, hwords, hend, hlast, .inr rfl⟩
    · next hr =>
      obtain ⟨rfl, rfl⟩ := h2
      rw [List.append_nil]
      rcases hall rfl with ⟨-, hacked⟩ | rfl
      · exact ⟨sent, hwords, hend, hlast, .inl ⟨rfl, hacked⟩⟩
      · exact absurd (by decide) hr

/-- Closing a transaction strobes no word. -/
theorem terminate_words {A : Gpio → Prop} (h : At A false old s)
    (he : Ends (ficHlsCommTerminate b fuel) l r) : (s.after l).words = old := by
  have hlow : Ops Lowers (ficHlsCommTerminate b fuel) := by
    refine ops_check (ops_bind (ops_call _ trivial) fun _ => ops_pollTimed fuel trivial trivial _) <|
      ops_check (ops_pollTimed fuel trivial trivial _) ?_
    exact ⟨trivial, fun _ => ⟨trivial, fun _ => ⟨trivial, fun _ => trivial⟩⟩⟩
  rw [(lowers_after h.up (events_ops hlow he)).2]
  exact h.words

end

end Libfic2
