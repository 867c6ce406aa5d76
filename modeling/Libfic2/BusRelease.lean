import Libfic2.Waits
import Libfic2.Signals
import Libfic2.PinSharing

/-!
# Which calls leave the bus released

The last statement of a successful transaction is SET_ALL_INPUT; the error returns have
none, and leave RREQ, or the pin that set-up was at, an output.  So a call leaves all pins
inputs exactly when every wait of it is answered in time: `bus_released_iff`.
-/

namespace Libfic2

open Driver Prog

variable (b : Board) (fuel : Nat)

/-- An operation after which pin `q` still is an output. -/
def Spares (q : Nat) : Op → Prop
  | .setInput p => p ≠ q
  | .clearSel _ => False
  | _ => True

instance (q : Nat) : Signals (Spares q) := ⟨fun _ => trivial, fun _ => trivial, trivial, trivial⟩

section
variable {α : Type} {p : P α} {l : List Ev} {a : α} {g : Gpio} {q : Nat}

theorem spares_pins {o : Op} (ho : Spares q o) (h : g.isOut q = true) : (o.pins g).isOut q = true := by
  cases o with
  | setInput p =>
    unfold Gpio.isOut at *
    rwa [Op.pins, Gpio.fn_setInput, if_neg fun e => ho e.symm]
  | setOutput p => exact Gpio.isOut_setOutput h p
  | clearSel r => exact ho.elim
  | _ => exact h

theorem spares_after (hp : Ops (Spares q) p) (he : Ends p l a) (h : g.isOut q = true) :
    (g.after l).isOut q = true := by
  induction p generalizing l g with
  | ret c => exact he.1 ▸ h
  | op o k ih =>
    obtain ⟨c, l', rfl, he'⟩ := he
    have hrest := ih c (hp.2 c) he' (spares_pins hp.1 h)
    exact hrest
  | hang => exact he.elim

theorem setInputOutput_isOut (he : Ends (setInputOutput q) l ()) (g : Gpio) :
    (g.after l).isOut q = true := by
  obtain ⟨_, l1, rfl, _, l2, rfl, rfl, -⟩ := he
  exact g.isOut_setInputOutput q

theorem not_allInput (h : g.isOut q = true) (hq : q < 30) : ¬ g.AllInput := by
  intro ha
  unfold Gpio.isOut at h
  rw [ha.fn hq] at h
  cases h

end

/-! ## Transactions that hold RREQ -/

/-- Begun with RREQ an output, `p` ends with all pins inputs when it answers `ok`, and with RREQ still
an output when it answers `fail`. -/
def Closes {α : Type} (ok fail : α → Prop) (p : P α) : Prop :=
  ∀ l a (g : Gpio), g.isOut b.rpRreq = true → Ends p l a →
    (ok a ∧ (g.after l).AllInput) ∨ (fail a ∧ (g.after l).isOut b.rpRreq = true)

section
variable {b} {α β : Type} {ok fail : α → Prop} {q : P β} {f : β → P α}

theorem closes_fail {a : α} (ha : fail a) : Closes b ok fail (ret a) := by
  rintro l _ g hg ⟨rfl, rfl⟩
  exact .inr ⟨ha, hg⟩

theorem closes_bind (hq : Ops (Spares b.rpRreq) q) (hf : ∀ a, Closes b ok fail (f a)) :
    Closes b ok fail (q >>= f) := by
  intro l a g hg he
  obtain ⟨c, l1, l2, rfl, h1, h2⟩ := ends_bind.1 he
  rw [Gpio.after_append]
  exact hf c l2 a _ (spares_after hq h1 hg) h2

theorem closes_checkOr {e : α} {q : P Int} {k : P α} (hq : Ops (Spares b.rpRreq) q)
    (hk : Closes b ok fail k) (he : fail e) : Closes b ok fail (checkOr e q k) := by
  refine closes_bind hq fun r => ?_
  split
  · exact closes_fail he
  · exact hk

theorem closes_check {ok : Int → Prop} {q k : P Int} (hq : Ops (Spares b.rpRreq) q)
    (hk : Closes b ok Err k) : Closes b ok Err (check q k) :=
  closes_checkOr hq hk rfl

theorem closes_setAllInput {a : α} (ha : ok a) : Closes b ok fail (setAllInput >>= fun _ => ret a) := by
  intro l c g _ he
  obtain ⟨_, l1, l2, rfl, h1, rfl, rfl⟩ := ends_bind.1 he
  rw [List.append_nil]
  exact .inl ⟨ha, after_setAllInput h1 g⟩

end

section
variable {b}

theorem spares_setInput {p q : Nat} (h : p ≠ q) : Ops (Spares q) (issue (.setInput p)) :=
  ⟨h, fun _ => trivial⟩

theorem spares_setInputOutput {p q : Nat} (h : p ≠ q) : Ops (Spares q) (setInputOutput p) :=
  ⟨h, fun _ => ⟨trivial, fun _ => trivial⟩⟩

theorem spares_ficCommPortdir (dir : CommPortDir) : Ops (Spares b.rpRreq) (ficCommPortdir b dir) := by
  have hne : ∀ i, b.rpDataLow ≤ i → i < b.rpDataLow + b.width → i ≠ b.rpRreq := by
    cases b <;> (intro i h1 h2; simp at h1 h2 ⊢; omega)
  cases dir with
  | snd => exact ops_forDo _ _ fun i h1 h2 => spares_setInputOutput (hne i h1 h2)
  | rcv => exact ops_forDo _ _ fun i h1 h2 => spares_setInput (hne i h1 h2)

theorem closes_release (m : BitVec 32) {α : Type} {ok fail : α → Prop} {a e : α} (ha : ok a) (he : fail e) :
    Closes b ok fail (checkOr e (ficClrGpio fuel m) <| checkOr e (ficCommWaitFreqDown b fuel) <| do
      setAllInput
      ret a) :=
  closes_checkOr (signals_ficClrGpio _ _)
    (closes_checkOr (signals_pollTimed _ _) (closes_setAllInput ha) he) he

end

/-! ## Set-up -/

/-- The pins of the bus below `i` are outputs. -/
def OutBelow (i : Nat) (g : Gpio) : Prop := ∀ q, q < i → commPin b q = true → g.isOut q = true

section
variable {b fuel} {l : List Ev} {r : Int} {g : Gpio} {i : Nat}

/-- One pin. -/
theorem ends_setupRound (he : Ends (do
      when (i == b.rpFack || i == b.rpFreq) (issue (.setInput i))
      if commPin b i then do
        setInputOutput i
        check (ficClrGpio fuel (rpPin i)) (ret 0)
      else ret 0 : P Int) l r) (h : OutBelow b i g) :
    (r = -1 ∧ (g.after l).isOut i = true) ∨ (r = 0 ∧ OutBelow b (i + 1) (g.after l)) := by
  obtain ⟨_, l1, l2, rfl, hfirst, h2⟩ := ends_bind.1 he
  have hbelow : ∀ q, q < i → commPin b q = true → (g.after l1).isOut q = true := by
    intro q hq hc
    exact spares_after (ops_when fun _ => spares_setInput (Nat.ne_of_gt hq)) hfirst (h q hq hc)
  rw [Gpio.after_append]
  split at h2
  · next hc =>
    obtain ⟨_, l3, l4, rfl, hout, h4⟩ := ends_bind.1 h2
    rw [Gpio.after_append]
    have hset : ∀ q, Ops (Spares q) (check (ficClrGpio fuel (rpPin i)) (ret 0)) :=
      fun q => ops_check (signals_ficClrGpio _ _) trivial
    have hi : (((g.after l1).after l3).after l4).isOut i = true :=
      spares_after (hset i) h4 (setInputOutput_isOut hout _)
    have hkeep : ∀ q, q < i → commPin b q = true → (((g.after l1).after l3).after l4).isOut q = true :=
      fun q hq hcq =>
      spares_after (hset q) h4
        (spares_after (spares_setInputOutput (Nat.ne_of_gt hq)) hout (hbelow q hq hcq))
    rcases (polls_checkRet (polls_ficClrGpio fuel (rpPin i))).answered h4 with ⟨hr, -⟩ | ⟨hr, -⟩
    · refine .inr ⟨hr, fun q hq hcq => ?_⟩
      rcases Nat.lt_succ_iff_lt_or_eq.1 hq with hlt | rfl
      · exact hkeep q hlt hcq
      · exact hi
    · exact .inl ⟨hr, hi⟩
  · next hc =>
    obtain ⟨rfl, rfl⟩ := h2
    refine .inr ⟨rfl, fun q hq hcq => ?_⟩
    rcases Nat.lt_succ_iff_lt_or_eq.1 hq with hlt | rfl
    · exact hbelow q hlt hcq
    · exact absurd hcq hc

/-- `fic_comm_setup` leaves a pin driven when it fails, and RREQ when it does not. -/
theorem ends_ficCommSetup (he : Ends (ficCommSetup b fuel) l r) (g : Gpio) :
    (r = -1 ∧ ∃ q, q < 30 ∧ (g.after l).isOut q = true) ∨ (r = 0 ∧ (g.after l).isOut b.rpRreq = true) := by
  obtain ⟨_, l1, l2, rfl, -, h2⟩ := ends_bind.1 he
  rw [Gpio.after_append]
  have rounds : ∀ n i l (g : Gpio), i + n = gpioPinMax → OutBelow b i g → Ends (forEach (fun i => do
      when (i == b.rpFack || i == b.rpFreq) (issue (.setInput i))
      if commPin b i then do
        setInputOutput i
        check (ficClrGpio fuel (rpPin i)) (ret 0)
      else ret 0) i n) l r →
      (r = -1 ∧ ∃ q, q < 30 ∧ (g.after l).isOut q = true) ∨
        (r = 0 ∧ OutBelow b gpioPinMax (g.after l)) := by
    intro n
    induction n with
    | zero =>
      rintro i l g hi h ⟨rfl, rfl⟩
      exact .inr ⟨rfl, by rwa [← hi]⟩
    | succ n ih =>
      intro i l g hi h he
      obtain ⟨r1, l3, l4, rfl, h3, h4⟩ := ends_bind.1 he
      rw [Gpio.after_append]
      rcases ends_setupRound h3 h with ⟨rfl, hout⟩ | ⟨rfl, hnext⟩
      · obtain ⟨rfl, rfl⟩ := h4
        exact .inl ⟨rfl, i, by simp at hi; omega, hout⟩
      · exact ih (i + 1) l4 _ (by omega) hnext h4
  rcases rounds gpioPinMax 0 l2 (g.after l1) (Nat.zero_add _)
    (fun q hq => absurd hq (Nat.not_lt_zero q)) h2 with h | ⟨hr, hall⟩
  · exact .inl h
  · exact .inr ⟨hr, hall _ (by cases b <;> decide) (by cases b <;> decide)⟩

end

/-! ## The calls -/

/-- `p` leaves all pins inputs when it answers `ok`, and some pin an output when it answers `fail`. -/
def Finishes {α : Type} (ok fail : α → Prop) (p : P α) : Prop :=
  ∀ l a (g : Gpio), Ends p l a → (ok a ∧ (g.after l).AllInput) ∨
    (fail a ∧ ∃ q, q < 30 ∧ (g.after l).isOut q = true)

/-- `p` makes RREQ an output, or fails and leaves another one. -/
def Opens (p : P Int) : Prop :=
  ∀ l r (g : Gpio), Ends p l r → (r = -1 ∧ ∃ q, q < 30 ∧ (g.after l).isOut q = true) ∨
    (r = 0 ∧ (g.after l).isOut b.rpRreq = true)

section
variable {b} {α : Type} {ok fail : α → Prop} {e : α} {k : P α} {q : P Int}

theorem rpRreq_lt : b.rpRreq < 30 := by cases b <;> decide

theorem opens_check {k : P Int} {ws : List Wait} (hq : Opens b q) (hk : Ops (Spares b.rpRreq) k)
    (hp : Polls Ok Err k ws) : Opens b (check q k) := by
  intro l r g he
  obtain ⟨r1, l1, l2, rfl, h1, h2⟩ := ends_bind.1 he
  rw [Gpio.after_append]
  rcases hq l1 r1 g h1 with ⟨rfl, hout⟩ | ⟨rfl, hheld⟩
  · obtain ⟨rfl, rfl⟩ := h2
    exact .inl ⟨rfl, hout⟩
  · have hend := spares_after hk h2 hheld
    rcases hp.answered h2 with ⟨hr, -⟩ | ⟨hr, -⟩
    · exact .inr ⟨hr, hend⟩
    · exact .inl ⟨hr, _, rpRreq_lt, hend⟩

theorem finishes_open (hq : Opens b q) (hk : Closes b ok fail k) (he : fail e) :
    Finishes ok fail (checkOr e q k) := by
  intro l a g h
  obtain ⟨r1, l1, l2, rfl, h1, h2⟩ := ends_bind.1 h
  rw [Gpio.after_append]
  rcases hq l1 r1 g h1 with ⟨rfl, hout⟩ | ⟨rfl, hheld⟩
  · obtain ⟨rfl, rfl⟩ := h2
    exact .inr ⟨he, hout⟩
  · rcases hk l2 a _ hheld h2 with h | ⟨ha, hout⟩
    · exact .inl h
    · exact .inr ⟨ha, _, rpRreq_lt, hout⟩

theorem finishes_checkOr (hq : Finishes Ok Err q) (hk : Finishes ok fail k) (he : fail e) :
    Finishes ok fail (checkOr e q k) := by
  intro l a g h
  obtain ⟨r1, l1, l2, rfl, h1, h2⟩ := ends_bind.1 h
  rw [Gpio.after_append]
  rcases hq l1 r1 g h1 with ⟨rfl, -⟩ | ⟨rfl, hout⟩
  · exact hk l2 a _ h2
  · obtain ⟨rfl, rfl⟩ := h2
    exact .inr ⟨he, hout⟩

/-- A last step that closes the bus. -/
theorem closes_last (hq : Closes b Ok Err q) {a : α} (ha : ok a) (he : fail e) :
    Closes b ok fail (checkOr e q (ret a)) := by
  intro l c g hg h
  obtain ⟨r1, l1, l2, rfl, h1, h2⟩ := ends_bind.1 h
  rw [Gpio.after_append]
  rcases hq l1 r1 g hg h1 with ⟨rfl, hin⟩ | ⟨rfl, hout⟩
  · obtain ⟨rfl, rfl⟩ := h2
    exact .inl ⟨ha, hin⟩
  · obtain ⟨rfl, rfl⟩ := h2
    exact .inr ⟨he, hout⟩

variable {fuel}

theorem opens_ficCommSetup : Opens b (ficCommSetup b fuel) := fun _ _ g he => ends_ficCommSetup he g

theorem finishes_ficWrite (addr data : BitVec 16) : Finishes Ok Err (ficWrite b fuel addr data) := by
  refine finishes_open opens_ficCommSetup
    (closes_bind (spares_ficCommPortdir .snd) fun _ => closes_check (signals_ficSetGpio _ _) <|
    closes_check (signals_ficCommSend _ _ _) <|
    closes_check (signals_ficCommSetaddr _ _ _) <| closes_check ?_ <|
    closes_release fuel _ rfl rfl) rfl
  cases b with
  | mk1 => exact ops_check (signals_ficCommSend _ _ _) (ops_check (signals_ficCommSend _ _ _) trivial)
  | mk2 => exact ops_check (signals_ficCommSend _ _ _) trivial

theorem closes_checkVal {ok : Int → Prop} {p : P Int} {k : Int → P Int} (hp : Ops (Spares b.rpRreq) p)
    (hk : ∀ i, Closes b ok Err (k i)) : Closes b ok Err (checkVal p k) := by
  refine closes_bind hp fun i => ?_
  split
  · exact closes_fail rfl
  · exact hk i

theorem finishes_ficRead (addr : BitVec 16) : Finishes (0 ≤ ·) Err (ficRead b fuel addr) := by
  refine finishes_open opens_ficCommSetup
    (closes_bind (spares_ficCommPortdir .snd) fun _ => closes_check (signals_ficSetGpio _ _) <|
    closes_check (signals_ficCommSend _ _ _) <| closes_check (signals_ficCommSetaddr _ _ _) <|
    closes_bind (spares_ficCommPortdir .rcv) fun _ => ?_) rfl
  cases b with
  | mk1 =>
    exact closes_checkVal (signals_ficCommReceive _ _) fun _ =>
      closes_checkVal (signals_ficCommReceive _ _) fun _ =>
      closes_release fuel _ (Int.natCast_nonneg _) rfl
  | mk2 =>
      exact closes_checkVal (signals_ficCommReceive _ _) fun _ =>
        closes_release fuel _ (Int.natCast_nonneg _) rfl

theorem finishes_hlsCommand (cmd : RasioCmd) : Finishes Ok Err (hlsCommand b fuel cmd) :=
  finishes_open opens_ficCommSetup (closes_bind (spares_ficCommPortdir .snd) fun _ =>
    closes_check (signals_ficSetGpio _ _) <|
    closes_check (signals_ficCommSend _ _ _) <| closes_release fuel _ rfl rfl) rfl

theorem opens_ficHlsCommInitiate (cmd : RasioCmd) : Opens b (ficHlsCommInitiate b fuel cmd) := by
  have hspare : Ops (Spares b.rpRreq) (do
      when (cmd == .read) (ficCommPortdir b .rcv)
      ret 0 : P Int) := ops_bind (ops_when fun _ => spares_ficCommPortdir .rcv) fun _ => trivial
  have hpoll : Polls Ok Err (do
      when (cmd == .read) (ficCommPortdir b .rcv)
      ret 0 : P Int) [] := polls_silent (ops_when fun _ => silent_ficCommPortdir b .rcv)
      fun _ => polls_ret rfl
  have hrest :=
    polls_silent (silent_ficCommPortdir b .snd) fun _ =>
      polls_check (polls_ficSetGpio fuel (rpPin b.rpRreq)) <|
    polls_check (polls_ficCommSend b fuel (cmd.code <<< b.rpDataLow)) <|
      polls_check (polls_ficCommSetaddr b fuel commAddrHls) hpoll
  exact opens_check opens_ficCommSetup
    (ops_bind (spares_ficCommPortdir .snd) fun _ => ops_check (signals_ficSetGpio _ _) <|
    ops_check (signals_ficCommSend _ _ _) <| ops_check (signals_ficCommSetaddr _ _ _) hspare) hrest

theorem closes_ficHlsCommTerminate : Closes b Ok Err (ficHlsCommTerminate b fuel) :=
  closes_release fuel _ rfl rfl

theorem finishes_ficHlsSend (data : Mem) (size : Nat) : Finishes Ok Err (ficHlsSend b fuel data size) :=
  finishes_open (opens_ficHlsCommInitiate _) (closes_check (signals_ficHlsSendBytes _ _ _ _) <|
    closes_last closes_ficHlsCommTerminate rfl rfl) rfl

theorem finishes_ficHlsWrite (data : Mem) (size : Nat) (addr ctrl : BitVec 32) :
    Finishes Ok Err (ficHlsWrite b fuel data size addr ctrl) :=
  finishes_open (opens_ficHlsCommInitiate _) (closes_check (signals_ficHlsSendBytes _ _ _ _) <|
    closes_check (signals_ficHlsSendBytes _ _ _ _) <| closes_last closes_ficHlsCommTerminate rfl rfl) rfl

theorem finishes_ficHlsReceive (buf : Mem) (size : Nat) :
    Finishes OkPair ErrPair (ficHlsReceive b fuel buf size) := by
  refine finishes_open (opens_ficHlsCommInitiate _)
    (closes_bind (signals_ficHlsReceiveBytes _ _ _ _) fun r => ?_) rfl
  split
  · exact closes_fail rfl
  · exact closes_last closes_ficHlsCommTerminate rfl rfl

theorem finishes_ficHlsRead (buf : Mem) (size : Nat) (addr ctrl : BitVec 32) :
    Finishes OkPair ErrPair (ficHlsRead b fuel buf size addr ctrl) :=
  finishes_checkOr (finishes_ficHlsSend _ _) (finishes_ficHlsReceive buf size) rfl

end

/-- The bus transactions. -/
inductive BusCall
  | write (addr data : BitVec 16)
  | read (addr : BitVec 16)
  | hlsSend (data : Mem) (size : Nat)
  | hlsReceive (buf : Mem) (size : Nat)
  | hlsWrite (data : Mem) (size : Nat) (addr ctrl : BitVec 32)
  | hlsRead (buf : Mem) (size : Nat) (addr ctrl : BitVec 32)
  | hlsStart
  | hlsReset

def BusCall.prog : BusCall → P Unit
  | write addr data => discard (ficWrite b fuel addr data)
  | read addr => discard (ficRead b fuel addr)
  | hlsSend data size => discard (ficHlsSend b fuel data size)
  | hlsReceive buf size => discard (ficHlsReceive b fuel buf size)
  | hlsWrite data size addr ctrl => discard (ficHlsWrite b fuel data size addr ctrl)
  | hlsRead buf size addr ctrl => discard (ficHlsRead b fuel buf size addr ctrl)
  | hlsStart => discard (ficHlsStart b fuel)
  | hlsReset => discard (ficHlsReset b fuel)

def BusCall.waits : BusCall → List Wait
  | write addr data => writeWaits b addr data
  | read addr => readWaits b addr
  | hlsSend data size => hlsSendWaits b data size
  | hlsReceive _ size => hlsReceiveWaits b size
  | hlsWrite data size addr ctrl => hlsWriteWaits b data size addr ctrl
  | hlsRead _ size addr ctrl => hlsReadWaits b size addr ctrl
  | hlsStart => commandWaits b .hlsStart
  | hlsReset => commandWaits b .hlsReset

section
variable {b fuel} {l : List Ev}

theorem released_iff_answered {α : Type} {ok fail : α → Prop} {p : P α} {ws : List Wait}
    (hp : Polls ok fail p ws)
    (hl : Finishes ok fail p) (hx : ∀ a, ok a → ¬ fail a) (he : Ends (discard p) l ()) (g : Gpio) :
    (g.after l).AllInput ↔ AllAnswered ws (readings l) := by
  obtain ⟨a, l1, l2, rfl, h1, rfl, -⟩ := ends_bind.1 he
  rw [List.append_nil]
  rcases hl l1 a g h1 with ⟨hok, hin⟩ | ⟨hfail, q, hq, hout⟩
  · rcases hp.answered h1 with ⟨-, hans⟩ | ⟨hfail, -⟩
    · exact ⟨fun _ => hans, fun _ => hin⟩
    · exact absurd hfail (hx a hok)
  · rcases hp.answered h1 with ⟨hok, -⟩ | ⟨-, hans⟩
    · exact absurd hfail (hx a hok)
    · exact ⟨fun hin => absurd hin (not_allInput hout hq), fun h => absurd h hans⟩

/-- **A transaction leaves all pins inputs** exactly when each of its waits is answered in time. -/
theorem bus_released_iff (c : BusCall) (he : Ends (c.prog b fuel) l ()) (g : Gpio) :
    (g.after l).AllInput ↔ AllAnswered (c.waits b) (readings l) := by
  have hint : ∀ r : Int, Ok r → ¬ Err r := by
    rintro r rfl
    decide
  have hval : ∀ r : Int, 0 ≤ r → ¬ Err r := by
    rintro r hr rfl
    exact absurd hr (by decide)
  have hpair : ∀ r : Int × Mem, OkPair r → ¬ ErrPair r := fun r => hint r.1
  cases c with
  | write addr data =>
      exact released_iff_answered (polls_ficWrite b fuel addr data) (finishes_ficWrite addr data) hint he g
  | read addr => exact released_iff_answered (polls_ficRead b fuel addr) (finishes_ficRead addr) hval he g
  | hlsSend data size =>
      exact released_iff_answered (polls_ficHlsSend b fuel data size)
        (finishes_ficHlsSend data size) hint he g
  | hlsReceive buf size =>
    exact released_iff_answered (polls_ficHlsReceive b fuel buf size)
      (finishes_ficHlsReceive buf size) hpair he g
  | hlsWrite data size addr ctrl =>
    exact released_iff_answered (polls_ficHlsWrite b fuel data size addr ctrl)
      (finishes_ficHlsWrite data size addr ctrl) hint he g
  | hlsRead buf size addr ctrl =>
    exact released_iff_answered (polls_ficHlsRead b fuel buf size addr ctrl)
      (finishes_ficHlsRead buf size addr ctrl) hpair he g
  | hlsStart =>
      exact released_iff_answered (polls_hlsCommand b fuel .hlsStart)
        (finishes_hlsCommand .hlsStart) hint he g
  | hlsReset =>
      exact released_iff_answered (polls_hlsCommand b fuel .hlsReset)
        (finishes_hlsCommand .hlsReset) hint he g

end

/-! ## A peer that answers, and one that does not -/

/-- GET_GPIO reads `level` of the pins, and `time` moves `pace` seconds from one reading to the next. -/
def peer (level : Gpio → BitVec 32) (pace : Int) : (o : Op) → Gpio × Int → Ans o × (Gpio × Int)
  | .get, s => (level s.1, s)
  | .time, s => (s.2, (s.1, s.2 + pace))
  | .clock, s => (0, s)
  | .stat _, s => ((), s)
  | .setInput p, s => ((), (s.1.setInput p, s.2))
  | .setOutput p, s => ((), (s.1.setOutput p, s.2))
  | .clearSel r, s => ((), (s.1.clearSel r, s.2))
  | .set v, s => ((), (s.1.set v, s.2))
  | .clr v, s => ((), (s.1.clr v, s.2))

/-- The trace of `fic_write` on mk2. -/
def writeTrace (level : Gpio → BitVec 32) (pace : Int) : List Ev :=
  (BusCall.prog .mk2 2 (.write 0#16 0#16)).trace (peer level pace) 400 (World.start.gpio, 0)

/-- With FACK following RSTB. -/
theorem bus_released_prompt :
    Ends (BusCall.prog .mk2 2 (.write 0#16 0#16))
      (writeTrace (fun g => g.latch ||| if g.lat 4 then rpPin 27 else 0#32) 0) () ∧
      ((World.start.gpio.after
          (writeTrace (fun g => g.latch ||| if g.lat 4 then rpPin 27 else 0#32) 0)).AllInput ↔
        AllAnswered ((BusCall.write 0#16 0#16).waits .mk2)
          (readings (writeTrace (fun g => g.latch ||| if g.lat 4 then rpPin 27 else 0#32) 0))) := by
  have hend : Ends (BusCall.prog .mk2 2 (.write 0#16 0#16))
      (writeTrace (fun g => g.latch ||| if g.lat 4 then rpPin 27 else 0#32) 0) () :=
      trace_ends (by decide +kernel)
  exact ⟨hend, bus_released_iff (.write 0#16 0#16) hend World.start.gpio⟩

/-- With nobody there, RREQ stays an output. -/
theorem bus_left_driven : Ends (BusCall.prog .mk2 2 (.write 0#16 0#16)) (writeTrace Gpio.latch 11) () ∧
    ¬ (World.start.gpio.after (writeTrace Gpio.latch 11)).AllInput := by
  have hrreq : (World.start.gpio.after (writeTrace Gpio.latch 11)).isOut (Board.rpRreq .mk2) =
      true := by decide +kernel
  exact ⟨trace_ends (by decide +kernel), not_allInput hrreq (by decide)⟩

end Libfic2
