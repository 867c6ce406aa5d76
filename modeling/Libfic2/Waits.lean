import Libfic2.ProgOutcome
import Libfic2.CommWords
import Libfic2.HlsLoops

/-!
# The waits of a bus transaction

What a call reads is a list of `Reading`s.  `Wait`s say what it waits for, one after
the other, and `Wait.afterAll` follows them through the readings; it fails where one runs
out of time.  `Polls ok fail p ws`: `p` makes the waits `ws` and fails when one is not
answered (`polls_ficWrite` .. `polls_ficHlsRead`).
-/

namespace Libfic2

open Driver Prog

/-- A value of GET_GPIO, or of `time`. -/
inductive Reading
  | pins (v : BitVec 32)
  | time (t : Int)

def reading? : Ev → Option Reading
  | ⟨.get, v⟩ => some (.pins v)
  | ⟨.time, t⟩ => some (.time t)
  | _ => none

def readings (l : List Ev) : List Reading := l.filterMap reading?

theorem readings_append (l l' : List Ev) : readings (l ++ l') = readings l ++ readings l' :=
  List.filterMap_append

/-- The loops that wait while `c(GET_GPIO)`, a plain GET_GPIO, and a step that is refused whatever is
read. -/
inductive Wait
  | timed (c : BitVec 32 → Bool)
  | counted (c : BitVec 32 → Bool) (n : Nat)
  | spin (c : BitVec 32 → Bool)
  | read
  | refused

namespace Wait

/-- After `time(&t1)`. -/
def timedFrom (c : BitVec 32 → Bool) (t1 : Int) : List Reading → Option (List Reading)
  | .pins v :: .time t2 :: l =>
    if c v then if t2 - t1 > commTimeout then none else timedFrom c t1 l else some (.time t2 :: l)
  | .pins v :: l => if c v then none else some l
  | _ => none

def countedFrom (c : BitVec 32 → Bool) : Nat → List Reading → Option (List Reading)
  | n, .pins v :: l =>
    if c v then match n with
      | 0 => none
      | n + 1 => countedFrom c n l
    else some l
  | _, _ => none

def spinFrom (c : BitVec 32 → Bool) : List Reading → Option (List Reading)
  | .pins v :: l => if c v then spinFrom c l else some l
  | _ => none

/-- The readings after the wait, if it is answered in time. -/
def after : Wait → List Reading → Option (List Reading)
  | timed c, .time t1 :: l => timedFrom c t1 l
  | counted c n, l => countedFrom c n l
  | spin c, l => spinFrom c l
  | read, .pins _ :: l => some l
  | _, _ => none

/-- The readings after all the waits. -/
def afterAll : List Wait → List Reading → Option (List Reading)
  | [], l => some l
  | w :: ws, l => (w.after l).bind (afterAll ws)

theorem afterAll_append (ws ws' : List Wait) (l : List Reading) :
    afterAll (ws ++ ws') l = (afterAll ws l).bind (afterAll ws') := by
  induction ws generalizing l with
  | nil => rfl
  | cons w ws ih =>
    show (w.after l).bind (afterAll (ws ++ ws')) = ((w.after l).bind (afterAll ws)).bind (afterAll ws')
    rw [Option.bind_assoc]
    exact congrArg _ (funext ih)

theorem afterAll_one (w : Wait) (l : List Reading) : afterAll [w] l = w.after l := Option.bind_fun_some _

end Wait

/-- Every wait is answered in time. -/
def AllAnswered (ws : List Wait) (l : List Reading) : Prop := (Wait.afterAll ws l).isSome = true

/-- `p` makes the waits `ws`: its answer is `ok` when all are answered, and `fail` when one is not. -/
def Polls {α : Type} (ok fail : α → Prop) (p : P α) (ws : List Wait) : Prop :=
  ∀ l a, Ends p l a → ∀ rest, (ok a ∧ Wait.afterAll ws (readings l ++ rest) = some rest) ∨
    (fail a ∧ Wait.afterAll ws (readings l ++ rest) = none)

/-- The answers of most functions. -/
abbrev Ok (r : Int) : Prop := r = 0
abbrev Err (r : Int) : Prop := r = -1
abbrev Never {α : Type} (_ : α) : Prop := False

/-! ## Rules -/

section
variable {α β : Type} {ok fail : α → Prop} {ok' fail' : β → Prop} {p : P α} {f : α → P β}
    {ws ws' : List Wait} {l : List Ev}

theorem Polls.answered (h : Polls ok fail p ws) {a : α} (he : Ends p l a) :
    (ok a ∧ AllAnswered ws (readings l)) ∨ (fail a ∧ ¬ AllAnswered ws (readings l)) := by
  have := h l a he []
  rw [List.append_nil] at this
  unfold AllAnswered
  rcases this with ⟨ha, hw⟩ | ⟨ha, hw⟩
  · exact .inl ⟨ha, by rw [hw]; rfl⟩
  · exact .inr ⟨ha, by rw [hw]; exact nofun⟩

/-- Whatever is read afterwards. -/
theorem Polls.settled (h : Polls ok fail p ws) (hx : ∀ a, ok a → ¬ fail a) {a : α} (he : Ends p l a) :
    (ok a ∧ ∀ rest, Wait.afterAll ws (readings l ++ rest) = some rest) ∨
      (fail a ∧ ∀ rest, Wait.afterAll ws (readings l ++ rest) = none) := by
  rcases h l a he [] with ⟨ha, -⟩ | ⟨ha, -⟩
  · exact .inl ⟨ha, fun rest => (h l a he rest).elim (fun hw => hw.2) fun hw => absurd hw.1 (hx a ha)⟩
  · exact .inr ⟨ha, fun rest => (h l a he rest).elim (fun hw => absurd ha (hx a hw.1)) fun hw => hw.2⟩

theorem ok_not_err {r : Int} (h : Ok r) : ¬ Err r := by
  subst h
  decide

theorem polls_ret {a : α} (ha : ok a) : Polls ok fail (ret a) [] := by
  rintro l _ ⟨rfl, rfl⟩ rest
  exact .inl ⟨ha, rfl⟩

theorem polls_refused {a : α} (ha : fail a) : Polls ok fail (ret a) [.refused] := by
  rintro l _ ⟨rfl, rfl⟩ rest
  exact .inr ⟨ha, rfl⟩

/-- What follows a failure fails. -/
theorem polls_bind (h : Polls ok fail p ws) (hf : ∀ a, ok a → Polls ok' fail' (f a) ws')
    (hfail : ∀ a l b, fail a → Ends (f a) l b → fail' b) : Polls ok' fail' (p >>= f) (ws ++ ws') := by
  intro l b he rest
  obtain ⟨a, l1, l2, rfl, h1, h2⟩ := ends_bind.1 he
  rw [readings_append, List.append_assoc, Wait.afterAll_append]
  rcases h l1 a h1 (readings l2 ++ rest) with ⟨ha, hw⟩ | ⟨ha, hw⟩
  · rw [hw]
    exact hf a ha l2 b h2 rest
  · rw [hw]
    exact .inr ⟨hfail a l2 b ha h2, rfl⟩

/-- The answer made of the answer of `p`. -/
theorem polls_answer (h : Polls ok fail p ws) (hok : ∀ a, ok a → ∃ b, f a = ret b ∧ ok' b)
    (hfail : ∀ a, fail a → ∃ b, f a = ret b ∧ fail' b) : Polls ok' fail' (p >>= f) ws := by
  rw [← List.append_nil ws]
  refine polls_bind h (fun a ha => ?_) fun a l b ha he => ?_
  · obtain ⟨b, hb, hok⟩ := hok a ha
    rw [hb]
    exact polls_ret hok
  · obtain ⟨c, hc, hfail⟩ := hfail a ha
    rw [hc] at he
    rw [he.2]
    exact hfail

theorem polls_checkOr {e : α} {q : P Int} {k : P α} (hq : Polls Ok Err q ws)
    (hk : Polls ok fail k ws') (he : fail e) : Polls ok fail (checkOr e q k) (ws ++ ws') := by
  refine polls_bind hq (fun r hr => ?_) fun r l b hr h => ?_
  · rw [hr, if_neg (by decide)]
    exact hk
  · rw [hr, if_pos (by decide)] at h
    obtain ⟨-, rfl⟩ := h
    exact he

theorem polls_check {q k : P Int} {ok : Int → Prop} (hq : Polls Ok Err q ws) (hk : Polls ok Err k ws') :
    Polls ok Err (check q k) (ws ++ ws') :=
  polls_checkOr hq hk rfl

theorem polls_checkRet {q : P Int} (hq : Polls Ok Err q ws) : Polls Ok Err (check q (ret 0)) ws := by
  have h := polls_check hq (polls_ret (show Ok 0 from rfl))
  rwa [List.append_nil] at h

/-- An operation that reads nothing. -/
def Silent : Op → Prop
  | .get => False
  | .time => False
  | _ => True

theorem readings_silent (h : Ops Silent p) {a : α} (he : Ends p l a) : readings l = [] := by
  induction p generalizing l with
  | ret c => exact he.1 ▸ rfl
  | op o k ih =>
    obtain ⟨c, l', rfl, he⟩ := he
    have hrest := ih c (h.2 c) he
    cases o with
    | get => exact h.1.elim
    | time => exact h.1.elim
    | _ => exact hrest
  | hang => exact he.elim

theorem polls_silent (h : Ops Silent p) (hf : ∀ a, Polls ok' fail' (f a) ws) :
    Polls ok' fail' (p >>= f) ws := by
  intro l b he rest
  obtain ⟨a, l1, l2, rfl, h1, h2⟩ := ends_bind.1 he
  rw [readings_append, readings_silent h h1]
  exact hf a l2 b h2 rest

theorem polls_get {f : BitVec 32 → P β} (hf : ∀ v, Polls ok' fail' (f v) ws) :
    Polls ok' fail' (issue .get >>= f) (.read :: ws) := by
  intro l b he rest
  obtain ⟨v, l', rfl, h⟩ := ends_callBind.1 he
  exact hf v l' b h rest

theorem polls_forEach {body : Nat → P Int} {ws : Nat → List Wait}
    (h : ∀ i, Polls Ok Err (body i) (ws i)) (lo n : Nat) :
    Polls Ok Err (forEach body lo n) ((List.range' lo n).flatMap ws) := by
  induction n generalizing lo with
  | zero => exact polls_ret rfl
  | succ n ih => exact polls_check (h lo) (ih (lo + 1))

end

/-! ## The loops -/

variable (b : Board) (fuel : Nat) (c : BitVec 32 → Bool)

theorem timedFrom_stop {c : BitVec 32 → Bool} {t1 : Int} {v : BitVec 32}
    {l : List Reading} (hv : c v = false) : Wait.timedFrom c t1 (.pins v :: l) = some l := by
  cases l with
  | nil => simp only [Wait.timedFrom, hv, Bool.false_eq_true, if_false]
  | cons e l => cases e <;> simp only [Wait.timedFrom, hv, Bool.false_eq_true, if_false]

theorem polls_pollTimed : Polls Ok Err (pollTimed fuel c) [.timed c] := by
  intro l a he rest
  obtain ⟨t1, l1, rfl, h1⟩ := ends_callBind.1 he
  rw [Wait.afterAll_one]
  clear he
  show (_ ∧ Wait.timedFrom c t1 (readings l1 ++ rest) = _) ∨
    (_ ∧ Wait.timedFrom c t1 (readings l1 ++ rest) = _)
  induction fuel generalizing l1 with
  | zero => exact h1.elim
  | succ n ih =>
    obtain ⟨o, l2, l3, rfl, hbody, hrest⟩ := ends_bind.1 h1
    obtain ⟨v, l4, rfl, h4⟩ := ends_callBind.1 hbody
    cases hv : c v with
    | false =>
      rw [hv] at h4
      obtain ⟨rfl, rfl⟩ := h4
      obtain ⟨rfl, rfl⟩ := hrest
      exact .inl ⟨rfl, timedFrom_stop hv⟩
    | true =>
      rw [hv] at h4
      obtain ⟨t2, l5, rfl, h5⟩ := ends_callBind.1 h4
      have hround : Wait.timedFrom c t1 (readings (reads v :: ⟨.time, t2⟩ :: (l5 ++ l3)) ++ rest) =
          if t2 - t1 > commTimeout then none
          else Wait.timedFrom c t1 (readings (l5 ++ l3) ++ rest) := if_pos hv
      show (_ ∧ Wait.timedFrom c t1 (readings (reads v :: ⟨.time, t2⟩ :: (l5 ++ l3)) ++ rest) = _) ∨ _
      rw [hround]
      split at h5
      · next ht =>
        obtain ⟨rfl, rfl⟩ := h5
        obtain ⟨rfl, rfl⟩ := hrest
        exact .inr ⟨rfl, hround.trans (if_pos ht)⟩
      · next ht =>
        obtain ⟨rfl, rfl⟩ := h5
        rw [if_neg ht]
        exact (ih l3 hrest).imp_right fun h => ⟨h.1, hround.trans ((if_neg ht).trans h.2)⟩

theorem polls_pollCounted (n : Nat) : Polls Ok Err (pollCounted c n) [.counted c n] := by
  intro l a he rest
  rw [Wait.afterAll_one]
  show (_ ∧ Wait.countedFrom c n (readings l ++ rest) = _) ∨
    (_ ∧ Wait.countedFrom c n (readings l ++ rest) = _)
  induction n generalizing l with
  | zero =>
    obtain ⟨v, l1, rfl, h1⟩ := ends_callBind.1 he
    have hround : Wait.countedFrom c 0 (readings (reads v :: l1) ++ rest) = if c v then none
        else some (readings l1 ++ rest) := rfl
    split at h1
    · next hv =>
      obtain ⟨rfl, rfl⟩ := h1
      exact .inr ⟨rfl, hround.trans (if_pos hv)⟩
    · next hv =>
      obtain ⟨rfl, rfl⟩ := h1
      exact .inl ⟨rfl, hround.trans (if_neg hv)⟩
  | succ n ih =>
    obtain ⟨v, l1, rfl, h1⟩ := ends_callBind.1 he
    have hround : Wait.countedFrom c (n + 1) (readings (reads v :: l1) ++ rest) =
      if c v then Wait.countedFrom c n (readings l1 ++ rest) else some (readings l1 ++ rest) := rfl
    split at h1
    · next hv =>
      exact (ih l1 h1).imp (fun h => ⟨h.1, hround.trans ((if_pos hv).trans h.2)⟩) fun h =>
        ⟨h.1, hround.trans ((if_pos hv).trans h.2)⟩
    · next hv =>
      obtain ⟨rfl, rfl⟩ := h1
      exact .inl ⟨rfl, hround.trans (if_neg hv)⟩

/-- A loop without a timeout cannot fail. -/
theorem polls_spin : Polls Ok Never (spin fuel c) [.spin c] := by
  intro l a he rest
  rw [Wait.afterAll_one]
  show (_ ∧ Wait.spinFrom c (readings l ++ rest) = _) ∨ (_ ∧ Wait.spinFrom c (readings l ++ rest) = _)
  unfold spin at he
  induction fuel generalizing l with
  | zero => exact he.elim
  | succ n ih =>
    obtain ⟨o, l2, l3, rfl, hbody, hrest⟩ := ends_bind.1 he
    obtain ⟨v, l4, rfl, h4⟩ := ends_callBind.1 hbody
    have hround : Wait.spinFrom c (readings (reads v :: (l4 ++ l3)) ++ rest) =
      if c v then Wait.spinFrom c (readings (l4 ++ l3) ++ rest)
      else some (readings (l4 ++ l3) ++ rest) := rfl
    split at h4
    · next hv =>
      obtain ⟨rfl, rfl⟩ := h4
      exact (ih l3 hrest).imp (fun h => ⟨h.1, hround.trans ((if_pos hv).trans h.2)⟩) fun h => h.1.elim
    · next hv =>
      obtain ⟨rfl, rfl⟩ := h4
      obtain ⟨rfl, rfl⟩ := hrest
      exact .inl ⟨rfl, hround.trans (if_neg hv)⟩

/-! ## Setting and clearing pins -/

variable (set : BitVec 32)

theorem polls_ficSetGpio : Polls Ok Err (ficSetGpio fuel set) [.timed (notSet set)] :=
  polls_silent (ops_call _ trivial) fun _ => polls_pollTimed fuel _

theorem polls_ficClrGpio : Polls Ok Err (ficClrGpio fuel set) [.timed (notClr set)] :=
  polls_silent (ops_call _ trivial) fun _ => polls_pollTimed fuel _

theorem polls_ficSetGpioFast : Polls Ok Never (ficSetGpioFast fuel set) [.spin (notSet set)] :=
  polls_silent (ops_call _ trivial) fun _ => polls_spin fuel _

theorem polls_ficClrGpioFast : Polls Ok Never (ficClrGpioFast fuel set) [.spin (notClr set)] :=
  polls_silent (ops_call _ trivial) fun _ => polls_spin fuel _

/-! ## Register access -/

/-- The waits of `fic_comm_setup` for pin `i`. -/
def pinWaits (i : Nat) : List Wait := if commPin b i then [.timed (notClr (rpPin i))] else []

def setupWaits : List Wait := (List.range' 0 gpioPinMax).flatMap (pinWaits b)

def fackLow (v : BitVec 32) : Bool := getPin v b.rpFack == 0#32
def fackHigh (v : BitVec 32) : Bool := getPin v b.rpFack == 1#32
def freqHigh (v : BitVec 32) : Bool := getPin v b.rpFreq == 1#32

def sendWaits (bus : BitVec 32) : List Wait :=
  [.timed (notClr (sendMask b)), .timed (notSet (rpPin b.rpRstb ||| bus)), .timed (fackLow b),
    .timed (notClr (rpPin b.rpRstb)), .timed (fackHigh b)]

def receiveWaits : List Wait :=
  [.timed (notClr (rpPin b.rpRstb)), .timed (notSet (rpPin b.rpRstb)), .timed (fackLow b), .read,
    .timed (notClr (rpPin b.rpRstb)), .timed (fackHigh b)]

def setaddrWaits (addr : BitVec 16) : List Wait :=
  let a := addr.setWidth 32
  match b with
  | .mk1 =>
    sendWaits .mk1 (((a &&& 0xf000#32) >>> 12) <<< Board.mk1.rpDataLow) ++
      (sendWaits .mk1 (((a &&& 0x0f00#32) >>> 8) <<< Board.mk1.rpDataLow) ++
        (sendWaits .mk1 (((a &&& 0x00f0#32) >>> 4) <<< Board.mk1.rpDataLow) ++
          sendWaits .mk1 ((a &&& 0x000f#32) <<< Board.mk1.rpDataLow)))
  | .mk2 => sendWaits .mk2 ((a &&& 0xffff#32) <<< Board.mk2.rpDataLow)

/-- The end of a transaction, which clears `m`. -/
def releaseWaits (m : BitVec 32) : List Wait := [.timed (notClr m), .timed (freqHigh b)]

theorem silent_setAllInput : Ops Silent setAllInput := ops_setAllInput fun _ => trivial

theorem silent_ficCommPortdir (dir : CommPortDir) : Ops Silent (ficCommPortdir b dir) := by
  cases dir with
  | snd => exact ops_forDo _ _ fun i _ _ => ⟨trivial, fun _ => ⟨trivial, fun _ => trivial⟩⟩
  | rcv => exact ops_forDo _ _ fun i _ _ => ops_call _ trivial

theorem polls_ficCommSetup : Polls Ok Err (ficCommSetup b fuel) (setupWaits b) := by
  refine polls_silent silent_setAllInput fun _ => polls_forEach (fun i => ?_) 0 gpioPinMax
  refine polls_silent (ops_when fun _ => ops_call _ trivial) fun _ => ?_
  unfold pinWaits
  split
  · refine polls_silent (ops_bind (ops_call _ trivial) fun _ => ops_call _ trivial) fun _ => ?_
    exact polls_checkRet (polls_ficClrGpio fuel _)
  · exact polls_ret rfl

theorem polls_ficCommSend (bus : BitVec 32) : Polls Ok Err (ficCommSend b fuel bus) (sendWaits b bus) :=
  polls_check (polls_ficClrGpio fuel _) <| polls_check (polls_ficSetGpio fuel _) <|
    polls_check (polls_pollTimed fuel _) <|
    polls_check (polls_ficClrGpio fuel _) <| polls_checkRet (polls_pollTimed fuel _)

/-- It answers a word, or -1. -/
theorem polls_ficCommReceive : Polls (0 ≤ ·) Err (ficCommReceive b fuel) (receiveWaits b) := by
  refine polls_check (polls_ficClrGpio fuel _) <| polls_check (polls_ficSetGpio fuel _) <|
    polls_check (polls_pollTimed fuel _) <|
    polls_get fun v => ?_
  have hret : Polls (0 ≤ ·) Err (ret (((v >>> b.rpDataLow) &&& rcvMask b).toNat : Int)) [] :=
    polls_ret (Int.natCast_nonneg _)
  exact polls_check (polls_ficClrGpio fuel _) (polls_check (polls_pollTimed fuel _) hret)

theorem polls_ficCommSetaddr (addr : BitVec 16) :
    Polls Ok Err (ficCommSetaddr b fuel addr) (setaddrWaits b addr) := by
  cases b with
  | mk1 =>
    exact polls_check (polls_ficCommSend _ fuel _) <| polls_check (polls_ficCommSend _ fuel _) <|
      polls_check (polls_ficCommSend _ fuel _) <| polls_checkRet (polls_ficCommSend _ fuel _)
  | mk2 => exact polls_checkRet (polls_ficCommSend _ fuel _)

/-- The end of a transaction. -/
theorem polls_release (m : BitVec 32) {α : Type} {ok fail : α → Prop} {a e : α} (ha : ok a) (he : fail e) :
    Polls ok fail (checkOr e (ficClrGpio fuel m) <| checkOr e (ficCommWaitFreqDown b fuel) <| do
      setAllInput
      ret a) (releaseWaits b m) :=
  polls_checkOr (polls_ficClrGpio fuel _)
    (polls_checkOr (polls_pollTimed fuel _) (polls_silent silent_setAllInput fun _ =>
    polls_ret ha) he) he

/-- The first part of a transaction: set-up, RREQ, command and address. -/
def openWaits (cmd : RasioCmd) (addr : BitVec 16) : List Wait :=
  setupWaits b ++ .timed (notSet (rpPin b.rpRreq)) ::
    (sendWaits b (cmd.code <<< b.rpDataLow) ++ setaddrWaits b addr)

theorem polls_open (cmd : RasioCmd) (addr : BitVec 16) {k : P Int} {ok : Int → Prop} {ws : List Wait}
    (hk : Polls ok Err k ws) : Polls ok Err (check (ficCommSetup b fuel) <| do
      ficCommPortdir b .snd
      check (ficSetGpio fuel (rpPin b.rpRreq)) <| check (ficCommSend b fuel (cmd.code <<< b.rpDataLow)) <|
        check (ficCommSetaddr b fuel addr) k) (openWaits b cmd addr ++ ws) := by
  have h := polls_check (polls_ficCommSetup b fuel) <| polls_silent (silent_ficCommPortdir b .snd) fun _ =>
    polls_check (polls_ficSetGpio fuel (rpPin b.rpRreq)) <|
      polls_check (polls_ficCommSend b fuel (cmd.code <<< b.rpDataLow)) <|
      polls_check (polls_ficCommSetaddr b fuel addr) hk
  simpa only [openWaits, List.append_assoc, List.cons_append, List.nil_append] using h

def writeWaits (addr data : BitVec 16) : List Wait :=
  let d := data.setWidth 32
  openWaits b .write addr ++ (match b with
    | .mk1 =>
        sendWaits .mk1 (((d &&& 0xf0#32) >>> 4) <<< Board.mk1.rpDataLow) ++
          sendWaits .mk1 ((d &&& 0x0f#32) <<< Board.mk1.rpDataLow)
    | .mk2 => sendWaits .mk2 (d <<< Board.mk2.rpDataLow)) ++
  releaseWaits b (rpPin b.rpRreq ||| rpPin b.rpRstb ||| b.commDatabusMask)

def readWaits (addr : BitVec 16) : List Wait :=
  openWaits b .read addr ++ (match b with
    | .mk1 => receiveWaits .mk1 ++ receiveWaits .mk1
    | .mk2 => receiveWaits .mk2) ++ releaseWaits b (rpPin b.rpRreq)

theorem polls_ficWrite (addr data : BitVec 16) :
    Polls Ok Err (ficWrite b fuel addr data) (writeWaits b addr data) := by
  have hend : Polls Ok Err _ _ :=
    polls_release b fuel (rpPin b.rpRreq ||| rpPin b.rpRstb ||| b.commDatabusMask) (a := (0 : Int)) rfl
    (rfl : Err (-1))
  unfold writeWaits
  rw [List.append_assoc]
  cases b with
  | mk1 =>
    exact polls_open _ fuel _ _ (polls_check (polls_check (polls_ficCommSend _ fuel _)
      (polls_checkRet (polls_ficCommSend _ fuel _))) hend)
  | mk2 => exact polls_open _ fuel _ _ (polls_check (polls_checkRet (polls_ficCommSend _ fuel _)) hend)

theorem polls_checkVal {p : P Int} {k : Int → P Int} {ok : Int → Prop} {ws ws' : List Wait}
    (hp : Polls (0 ≤ ·) Err p ws)
    (hk : ∀ i, Polls ok Err (k i) ws') : Polls ok Err (checkVal p k) (ws ++ ws') := by
  refine polls_bind hp (fun i hi => ?_) fun i l b hi h => ?_
  · rw [if_neg (Int.not_lt.2 hi)]
    exact hk i
  · rw [hi, if_pos (by decide)] at h
    exact h.2

/-- The value read, or -1. -/
theorem polls_ficRead (addr : BitVec 16) : Polls (0 ≤ ·) Err (ficRead b fuel addr) (readWaits b addr) := by
  have hend : ∀ n : Nat, Polls (0 ≤ ·) Err _ _ := fun n =>
    polls_release b fuel (rpPin b.rpRreq) (a := (n : Int)) (Int.natCast_nonneg n) (rfl : Err (-1))
  unfold readWaits
  rw [List.append_assoc]
  refine polls_open b fuel .read addr (polls_silent (silent_ficCommPortdir b .rcv) fun _ => ?_)
  cases b with
  | mk1 =>
    rw [List.append_assoc]
    exact polls_checkVal (polls_ficCommReceive _ fuel) fun _ =>
      polls_checkVal (polls_ficCommReceive _ fuel) fun _ => hend _
  | mk2 => exact polls_checkVal (polls_ficCommReceive _ fuel) fun _ => hend _

/-! ## HLS module commands -/

def commandWaits (cmd : RasioCmd) : List Wait :=
  setupWaits b ++ .timed (notSet (rpPin b.rpRreq)) ::
    (sendWaits b (cmd.code <<< b.rpDataLow) ++ releaseWaits b (rpPin b.rpRreq))

theorem polls_hlsCommand (cmd : RasioCmd) : Polls Ok Err (hlsCommand b fuel cmd) (commandWaits b cmd) :=
  polls_check (polls_ficCommSetup b fuel) <| polls_silent (silent_ficCommPortdir b .snd) fun _ =>
    polls_check (polls_ficSetGpio fuel _) <| polls_check (polls_ficCommSend b fuel _) <|
      polls_release b fuel _ rfl rfl

/-! ## HLS transfers -/

def initiateWaits (cmd : RasioCmd) : List Wait := openWaits b cmd commAddrHls

theorem polls_ficHlsCommInitiate (cmd : RasioCmd) :
    Polls Ok Err (ficHlsCommInitiate b fuel cmd) (initiateWaits b cmd) := by
  have hlast : Polls Ok Err (do
      when (cmd == .read) (ficCommPortdir b .rcv)
      ret 0 : P Int) [] :=
    polls_silent (ops_when fun _ => silent_ficCommPortdir b .rcv) fun _ => polls_ret rfl
  have h := polls_open b fuel cmd commAddrHls hlast
  rwa [List.append_nil] at h

def terminateWaits : List Wait := releaseWaits b (rpPin b.rpRreq ||| rpPin b.rpRstb)

theorem polls_ficHlsCommTerminate : Polls Ok Err (ficHlsCommTerminate b fuel) (terminateWaits b) :=
  polls_release b fuel _ rfl rfl

def sendFastWaits (bus : BitVec 32) : List Wait :=
  [.timed (notClr (sendMask b)), .spin (notSet (rpPin b.rpRstb ||| bus)),
    .counted (fackLow b) (commTimeoutNum + 1), .spin (notClr (rpPin b.rpRstb))]

theorem polls_ficCommSendFast (bus : BitVec 32) :
    Polls Ok Err (ficCommSendFast b fuel bus) (sendFastWaits b bus) := by
  refine polls_bind (polls_ficClrGpio fuel _) (fun r1 h1 => ?_) fun r1 l c h1 he => ?_
  · refine polls_bind (polls_ficSetGpioFast fuel _) (fun r2 h2 => ?_) fun _ _ _ h => h.elim
    refine polls_bind (polls_pollCounted _ _) (fun r3 h3 => ?_) fun r3 l c h3 he => ?_
    · refine polls_answer (polls_ficClrGpioFast fuel _) (fun r4 h4 => ⟨_, rfl, ?_⟩) fun _ h => h.elim
      rw [h1, h2, h3, h4]
      decide
    · refine ends_last he fun r4 l h => ?_
      rw [h3, intOr_neg_one_right, intOr_neg_one_left] at h
      exact h.2
  · refine ends_last he fun r2 l he => ends_last he fun r3 l he => ends_last he fun r4 l h => ?_
    rw [h1, intOr_neg_one_right, intOr_neg_one_left, intOr_neg_one_left, intOr_neg_one_left] at h
    exact h.2

/-! The loops over bytes, on mk1 and on mk2. -/

def sendBytesMk1 (data : Mem) : (n i : Nat) → List Wait
  | 0, _ => []
  | n + 1, i =>
      sendFastWaits .mk1 (hiWord (data i)) ++
        (sendFastWaits .mk1 (loWord (data i)) ++ sendBytesMk1 data n (i + 1))

def sendBytesMk2 (data : Mem) : (n i : Nat) → List Wait
  | 0, _ => []
  | n + 1, i => sendFastWaits .mk2 (pairWord (data i) (data (i + 1))) ++ sendBytesMk2 data n (i + 2)

def sendBytesWaits (data : Mem) (size : Nat) : List Wait :=
  if refused b size then [.refused] else
  match b with
  | .mk1 => sendBytesMk1 data size 0
  | .mk2 => sendBytesMk2 data ((size + 1) / 2) 0

theorem sendBytesMk1_eq (data : Mem) (n i : Nat) :
    sendBytesMk1 data n i = (byteWords .mk1 (bytesOf data i n)).flatMap fun w =>
      sendFastWaits .mk1 (busWord .mk1 w) := by
  induction n generalizing i with
  | zero => rfl
  | succ n ih =>
    unfold sendBytesMk1
    rw [ih, hiWord_eq, loWord_eq]
    rfl

theorem sendBytesMk2_eq (data : Mem) (n i : Nat) :
    sendBytesMk2 data n i = (byteWords .mk2 (bytesOf data i (2 * n))).flatMap fun w =>
      sendFastWaits .mk2 (busWord .mk2 w) := by
  induction n generalizing i with
  | zero => rfl
  | succ n ih =>
    unfold sendBytesMk2
    rw [ih, pairWord_eq]
    rfl

/-- On both boards the waits are those of the words. -/
theorem sendBytesWaits_eq (data : Mem) (size : Nat) : sendBytesWaits b data size =
    if refused b size then [.refused] else (dataWords b data size).flatMap fun w =>
      sendFastWaits b (busWord b w) := by
  unfold sendBytesWaits dataWords
  split
  · rfl
  · next hok =>
    cases b with
    | mk1 => exact sendBytesMk1_eq data size 0
    | mk2 =>
      have hodd : ¬ size % 2 ≠ 0 := fun h => hok (by rw [refused, decide_eq_true h, Bool.or_true]; rfl)
      show sendBytesMk2 data ((size + 1) / 2) 0 = _
      rw [sendBytesMk2_eq, show 2 * ((size + 1) / 2) = size by omega]

/-- A word that was not taken is not forgotten. -/
theorem ends_sendWords {ws : List (BitVec b.width)} {l : List Ev} {r : Int}
    (he : Ends (sendWords b fuel ws (-1)) l r) : r = -1 := by
  induction ws generalizing l with
  | nil => exact he.2
  | cons w ws ih =>
    refine ends_last (R := (· = -1)) he fun r1 l h => ?_
    rw [intOr_neg_one_left] at h
    exact ih h

theorem polls_sendWords (ws : List (BitVec b.width)) :
    Polls Ok Err (sendWords b fuel ws 0) (ws.flatMap fun w => sendFastWaits b (busWord b w)) := by
  induction ws with
  | nil => exact polls_ret rfl
  | cons w ws ih =>
    rw [List.flatMap_cons]
    refine polls_bind (polls_ficCommSendFast b fuel _) (fun r1 h1 => ?_) fun r1 l c h1 he => ?_
    · rw [h1]
      exact ih
    · rw [h1, intOr_neg_one_right] at he
      exact ends_sendWords b fuel he

/-- The answer -1 or 0 made of the answer of a loop. -/
theorem polls_last {p : P Int} {ws : List Wait} (h : Polls Ok Err p ws) :
    Polls Ok Err (p >>= fun r => if r < 0 then ret (-1) else ret 0) ws :=
  polls_answer h (fun r hr => ⟨0, if_neg (by rw [hr]; decide), rfl⟩) fun r hr =>
    ⟨-1, if_pos (by rw [hr]; decide), rfl⟩

theorem polls_ficHlsSendBytes (data : Mem) (size : Nat) :
    Polls Ok Err (ficHlsSendBytes b fuel data size) (sendBytesWaits b data size) := by
  rw [ficHlsSendBytes_eq, sendBytesWaits_eq]
  split
  · exact polls_refused rfl
  · exact polls_last (polls_sendWords b fuel _)

def receiveFastWaits : List Wait :=
  .spin (notClr (rpPin b.rpRstb)) :: .spin (notSet (rpPin b.rpRstb)) ::
    .counted (fackLow b) (commTimeoutNum + 1) ::
    (List.replicate (fastDummies b) .read ++ [.read, .spin (notClr (rpPin b.rpRstb))])

/-- For functions that answer a value next to 0 or -1. -/
abbrev OkPair {α : Type} (r : Int × α) : Prop := r.1 = 0
abbrev ErrPair {α : Type} (r : Int × α) : Prop := r.1 = -1

theorem polls_dummies (n lo : Nat) :
    Polls (fun _ => True) Never (forDo (fun _ => issue .get >>= fun _ => ret ()) lo n : P Unit)
      (List.replicate n .read) := by
  induction n generalizing lo with
  | zero => exact polls_ret trivial
  | succ n ih => exact polls_get fun _ => ih (lo + 1)

theorem polls_ficCommReceiveFast (rcv : BitVec 32) :
    Polls OkPair ErrPair (ficCommReceiveFast b fuel rcv) (receiveFastWaits b) := by
  refine polls_bind (polls_ficClrGpioFast fuel _) (fun r1 h1 => ?_) fun _ _ _ h => h.elim
  refine polls_bind (polls_ficSetGpioFast fuel _) (fun r2 h2 => ?_) fun _ _ _ h => h.elim
  refine polls_bind (polls_pollCounted _ _) (fun r3 h3 => ?_) fun r3 l c h3 he => ?_
  · rw [h1, h2, h3, if_neg (by decide)]
    refine polls_bind (polls_dummies _ 0) (fun _ _ => polls_get fun v => ?_) fun _ _ _ h => h.elim
    refine polls_answer (polls_ficClrGpioFast fuel _) (fun r4 h4 => ⟨_, rfl, ?_⟩) fun _ h => h.elim
    rw [h4]
    show intOr (intOr (intOr (intOr 0 0) 0) 0) 0 = 0
    decide
  · rw [h3, intOr_neg_one_right, if_pos (by decide)] at he
    rw [he.2]

def receiveBytesWaits (size : Nat) : List Wait :=
  if refused b size then [.refused] else
  match b with
  | .mk1 => (List.range' 0 size).flatMap fun _ => receiveFastWaits .mk1 ++ receiveFastWaits .mk1
  | .mk2 => (List.range' 0 ((size + 1) / 2)).flatMap fun _ => receiveFastWaits .mk2

/-- What one round of the loop waits for. -/
def roundWaits : List Wait :=
  match b with
  | .mk1 => receiveFastWaits .mk1 ++ receiveFastWaits .mk1
  | .mk2 => receiveFastWaits .mk2

theorem receiveBytesWaits_eq (size : Nat) : receiveBytesWaits b size =
    if refused b size then [.refused] else (List.range' 0 (size / roundBytes b)).flatMap fun _ =>
      roundWaits b := by
  cases b with
  | mk1 =>
    rw [roundBytes, Nat.div_one]
    rfl
  | mk2 =>
    unfold receiveBytesWaits
    split
    · rfl
    · next hok =>
      have hodd : ¬ size % 2 ≠ 0 := fun h => hok (by rw [refused, decide_eq_true h, Bool.or_true]; rfl)
      rw [roundBytes, show (size + 1) / 2 = size / 2 by omega]
      rfl

theorem polls_receiveRound :
    Polls (α := Int × List (BitVec 8)) OkPair ErrPair (receiveRound b fuel) (roundWaits b) := by
  cases b with
  | mk1 =>
    refine polls_bind (polls_ficCommReceiveFast _ fuel _) (fun r1 h1 => ?_) fun r1 l c h1 he => ?_
    · dsimp only
      rw [h1, if_neg (by decide)]
      exact polls_answer (polls_ficCommReceiveFast _ fuel _) (fun r2 h2 => ⟨_, rfl, h2⟩)
        fun r2 h2 => ⟨_, rfl, h2⟩
    · dsimp only at he
      rw [h1, if_pos (by decide)] at he
      rw [he.2]
  | mk2 =>
      exact polls_answer (polls_ficCommReceiveFast _ fuel _) (fun r1 h1 => ⟨_, rfl, h1⟩)
        fun r1 h1 => ⟨_, rfl, h1⟩

theorem polls_receiveRounds (n lo i : Nat) (buf : Mem) : Polls OkPair ErrPair (receiveRounds b fuel n i buf)
    ((List.range' lo n).flatMap fun _ => roundWaits b) := by
  induction n generalizing lo i buf with
  | zero => exact polls_ret rfl
  | succ n ih =>
    rw [List.range'_succ, List.flatMap_cons]
    refine polls_bind (polls_receiveRound b fuel) (fun r hr => ?_) fun r l c hr he => ?_
    · rw [hr, if_neg (by decide)]
      exact ih (lo + 1) _ _
    · rw [hr, if_pos (by decide)] at he
      rw [he.2]

theorem polls_lastPair {p : P (Int × Mem)} {ws : List Wait} (h : Polls OkPair ErrPair p ws) :
    Polls OkPair ErrPair (p >>= fun r => if r.1 < 0 then ret (-1, r.2) else ret (0, r.2)) ws :=
  polls_answer h (fun r hr => ⟨(0, r.2), if_neg (by rw [hr]; decide), rfl⟩) fun r hr =>
    ⟨(-1, r.2), if_pos (by rw [hr]; decide), rfl⟩

theorem polls_ficHlsReceiveBytes (buf : Mem) (size : Nat) :
    Polls OkPair ErrPair (ficHlsReceiveBytes b fuel buf size) (receiveBytesWaits b size) := by
  rw [ficHlsReceiveBytes_eq, receiveBytesWaits_eq]
  split
  · exact polls_refused rfl
  · exact polls_lastPair (polls_receiveRounds b fuel _ 0 0 buf)

/-! The transfers. -/

def hlsSendWaits (data : Mem) (size : Nat) : List Wait :=
  initiateWaits b .write ++ (sendBytesWaits b data size ++ terminateWaits b)

theorem polls_ficHlsSend (data : Mem) (size : Nat) :
    Polls Ok Err (ficHlsSend b fuel data size) (hlsSendWaits b data size) :=
  polls_check (polls_ficHlsCommInitiate b fuel _) <| polls_check (polls_ficHlsSendBytes b fuel _ _) <|
    polls_checkRet (polls_ficHlsCommTerminate b fuel)

def hlsWriteWaits (data : Mem) (size : Nat) (addr ctrl : BitVec 32) : List Wait :=
  initiateWaits b .write ++
    (sendBytesWaits b (cmdBytes ctrl addr size) 12 ++ (sendBytesWaits b data size ++ terminateWaits b))

theorem polls_ficHlsWrite (data : Mem) (size : Nat) (addr ctrl : BitVec 32) :
    Polls Ok Err (ficHlsWrite b fuel data size addr ctrl) (hlsWriteWaits b data size addr ctrl) :=
  polls_check (polls_ficHlsCommInitiate b fuel _) <| polls_check (polls_ficHlsSendBytes b fuel _ _) <|
    polls_check (polls_ficHlsSendBytes b fuel _ _) <| polls_checkRet (polls_ficHlsCommTerminate b fuel)

def hlsReceiveWaits (size : Nat) : List Wait :=
  initiateWaits b .read ++ (receiveBytesWaits b size ++ terminateWaits b)

theorem polls_ficHlsReceive (buf : Mem) (size : Nat) :
    Polls OkPair ErrPair (ficHlsReceive b fuel buf size) (hlsReceiveWaits b size) := by
  refine polls_checkOr (polls_ficHlsCommInitiate b fuel _) ?_ rfl
  refine polls_bind (polls_ficHlsReceiveBytes b fuel _ _) (fun r hr => ?_) fun r l c hr he => ?_
  · rw [hr, if_neg (by decide), ← List.append_nil (terminateWaits b)]
    exact polls_checkOr (polls_ficHlsCommTerminate b fuel) (polls_ret rfl) rfl
  · rw [hr, if_pos (by decide)] at he
    rw [he.2]

def hlsReadWaits (size : Nat) (addr ctrl : BitVec 32) : List Wait :=
  hlsSendWaits b (cmdBytes ctrl addr size) 12 ++ hlsReceiveWaits b size

theorem polls_ficHlsRead (buf : Mem) (size : Nat) (addr ctrl : BitVec 32) :
    Polls OkPair ErrPair (ficHlsRead b fuel buf size addr ctrl) (hlsReadWaits b size addr ctrl) :=
  polls_checkOr (polls_ficHlsSend b fuel _ _) (polls_ficHlsReceive b fuel buf size) rfl

end Libfic2
