import Libfic2.ProgRounds

/-!
# What the return of a programming function means

Judged by the trace of a call, whatever GET_GPIO, `time` and `clock` answered.  At the
end all pins are inputs and the status is DONE or FAIL (`Settles`), and DONE is reached
through the whole data loop with the tests of INIT and DONE passed (`Configured`).
-/

namespace Libfic2

open Driver Prog

/-- An operation of the library and its answer. -/
abbrev Ev := Event Op Ans

/-- The pins after a trace. -/
def Gpio.after (g : Gpio) (l : List Ev) : Gpio := l.foldl (fun g e => e.1.pins g) g

/-- What an operation does to PROG_STAT. -/
def Op.stats : Op → ProgStat → ProgStat
  | .stat f, st => f st
  | _, st => st

def ProgStat.after (st : ProgStat) (l : List Ev) : ProgStat := l.foldl (fun st e => e.1.stats st) st

theorem Gpio.after_append (g : Gpio) (l l' : List Ev) : g.after (l ++ l') = (g.after l).after l' :=
  List.foldl_append ..

theorem ProgStat.after_append (st : ProgStat) (l l' : List Ev) :
    st.after (l ++ l') = (st.after l).after l' :=
  List.foldl_append ..

/-- A run that returns has a trace, which tells the pins and PROG_STAT at its end. -/
theorem returned_ends {D : Type} {dev : Device D} {α : Type} {p : P α} {a : α} {s s' : World D}
    (hr : (sys dev).Run (p, s) (ret a, s')) :
    ∃ l, Ends p l a ∧ s'.gpio = s.gpio.after l ∧ s'.stat = s.stat.after l := by
  have hact : ∀ o t c t', (sys dev).act o t c t' →
      (t'.gpio, t'.stat) = (o.pins t.gpio, o.stats t.stat) := by
    intro o t c t' h
    cases o <;> (obtain ⟨-, rfl⟩ := h; rfl)
  have henv : ∀ t t', (sys dev).env t t' → (t'.gpio, t'.stat) = (t.gpio, t.stat) := by
    rintro t t' ⟨d, -, rfl⟩
    rfl
  obtain ⟨l, hl, hπ⟩ :=
    run_ends (fun t => (t.gpio, t.stat)) (fun o x => (o.pins x.1, o.stats x.2)) hact henv hr
  have hfold : ∀ (l : List Ev) g st,
      l.foldl (fun x e => (Op.pins e.1 x.1, Op.stats e.1 x.2)) (g, st) = (g.after l, st.after l) := by
    intro l
    induction l with
    | nil => exact fun _ _ => rfl
    | cons e l ih => exact fun g st => ih _ _
  rw [hfold] at hπ
  exact ⟨l, hl, congrArg Prod.fst hπ, congrArg Prod.snd hπ⟩

theorem allInput_clearSel (g : Gpio) : (((g.clearSel 0).clearSel 1).clearSel 2).AllInput := by
  intro r hr
  unfold Gpio.clearSel
  dsimp only
  by_cases h2 : r = 2
  · rw [h2, Function.update_self]
  rw [Function.update_of_ne h2]
  by_cases h1 : r = 1
  · rw [h1, Function.update_self]
  rw [Function.update_of_ne h1, show r = 0 by omega, Function.update_self]

theorem after_setAllInput {l : List Ev} (he : Ends setAllInput l ()) (g : Gpio) : (g.after l).AllInput := by
  obtain ⟨_, l1, rfl, _, l2, rfl, _, l3, rfl, rfl, -⟩ := he
  exact allInput_clearSel g

/-- A reading of GET_GPIO. -/
def reads (v : BitVec 32) : Ev := ⟨.get, v⟩

/-! ## The parts of a call -/

variable (b : Board) (fuel : Nat)

/-- One more clock while DONE is low. -/
def donePulse : P Int :=
  check (ficSetGpio fuel (rpPin rpCclk)) <|
  check (ficClrGpio fuel (rpPin rpCclk)) <|
  ret 0

/-- The wait for DONE: INIT reads high as often as DONE reads low, and DONE reads high at last. -/
inductive DoneAwaited : List Ev → Prop
  | high {v : BitVec 32} : v.getLsbD rpDone = true → DoneAwaited [reads v]
  | low {v w : BitVec 32} {t : Int} {l l' : List Ev} : v.getLsbD rpDone = false → w.getLsbD rpInit = true →
      Ends (donePulse fuel) l 0 → DoneAwaited l' →
      DoneAwaited (reads v :: ⟨.time, t⟩ :: reads w :: (l ++ l'))

/-- The rounds of a plain loop from index `i` on, with previous word `d'`: each clocks its word out
and then reads INIT high. -/
inductive WordsTaken (round : BitVec 32 → BitVec 32 → P Int) (word : Nat → BitVec 32) (k : Nat) :
    (n i : Nat) → (d' : BitVec 32) → List Ev → Prop
  | nil {i : Nat} {d' : BitVec 32} : WordsTaken round word k 0 i d' []
  | cons {n i : Nat} {d' v : BitVec 32} {r t : Int} {l l' : List Ev} :
      Ends (round (word i) d') l r → 0 ≤ r →
      v.getLsbD rpInit = true → WordsTaken round word k n (i + k) (word i) l' →
      WordsTaken round word k (n + 1) i d'
        (l ++ ⟨.stat fun st => { st with txSize := st.txSize + k }, ()⟩ :: ⟨.time, t⟩ :: reads v :: l')

/-- The test of INIT: after every word in the plain loops, after the whole loop in the fast ones. -/
def ProgFn.InitHigh (data : Mem) (size : Nat) (loop test : List Ev) : ProgFn → Prop
  | sm8 => WordsTaken (plainRound8 fuel) (word8 data) 1 size 0 0#32 loop ∧ test = []
  | sm16 => WordsTaken (plainRound16 fuel) (word16 data) 2 ((size + 1) / 2) 0 0#32 loop ∧ test = []
  | sm8Fast | sm16Fast => ∃ v, test = [reads v] ∧ v.getLsbD rpInit = true

/-- The end of the reset: the wait for INIT is over, and DONE reads low. -/
def ResetSeen (reset : List Ev) : Prop :=
  ∃ l v w, reset = l ++ [reads v, reads w] ∧ v.getLsbD rpInit = true ∧ w.getLsbD rpDone = false

/-- What follows the data loop in PM_NORMAL begins with the wait for DONE. -/
def DoneSeen (l : List Ev) : Prop := ∃ t wait l', l = ⟨.time, t⟩ :: (wait ++ l') ∧ DoneAwaited fuel wait

/-- The trace of a call that has configured the FPGA: the reset, the whole data loop, the test of INIT,
and the rest, each with the readings that let it pass. -/
def Configured (f : ProgFn) (data : Mem) (size : Nat) (pm : ProgMode) (l : List Ev) (n : Nat) : Prop :=
  ∃ l1 reset r l2 loop test l3, l = l1 ++ (reset ++ (l2 ++ (loop ++ (test ++ l3)))) ∧
    Ends (ficProgInit b fuel pm) reset r ∧ 0 ≤ r ∧
    Ends (f.body fuel data size) loop (some n) ∧ size ≤ n ∧ f.InitHigh fuel data size loop test ∧
    (pm = .normal → ResetSeen reset ∧ DoneSeen fuel l3)

/-- The end of every call. -/
structure Settles (f : ProgFn) (data : Mem) (size : Nat) (pm : ProgMode) (l : List Ev) (n : Nat)
    (g : Gpio) (st : ProgStat) : Prop where
  allInput : (g.after l).AllInput
  ended : (st.after l).stat = .done ∨ (st.after l).stat = .fail
  failed : (st.after l).stat = .fail → n = 0
  done : (st.after l).stat = .done → Configured b fuel f data size pm l n

variable {b fuel} {data : Mem} {size n m i : Nat} {pm : ProgMode} {l : List Ev} {r : Int}

/-! ## The reset -/

theorem ends_awaitInit (h : Ends (awaitInit fuel) l r) :
    ∃ l' v, l = l' ++ [reads v] ∧ v.getLsbD rpInit = true := by
  obtain ⟨l1, l2, rfl, h2⟩ := ends_loop h
  obtain ⟨v, l3, rfl, h3⟩ := ends_callBind.1 h2
  rw [getPin_beq_zero v (by decide)] at h3
  cases hv : v.getLsbD rpInit with
  | true =>
    rw [hv] at h3
    obtain ⟨rfl, -⟩ := h3
    exact ⟨l1, v, rfl, hv⟩
  | false =>
    rw [hv] at h3
    obtain ⟨w, l4, -, -, h4⟩ := h3
    cases h4

/-- In PM_NORMAL. -/
theorem ends_ficProgInit (h : Ends (ficProgInit b fuel .normal) l r) (hr : 0 ≤ r) : ResetSeen l := by
  obtain ⟨_, l0, l1, e1, _, _, h1⟩ := ends_check h hr
  obtain ⟨_, l2, l3, e2, _, h2⟩ := ends_bind.1 h1
  obtain ⟨_, l4, l5, e3, _, h3⟩ := ends_bind.1 h2
  obtain ⟨_, l6, l7, e4, _, h4⟩ := ends_bind.1 h3
  obtain ⟨_, l8, l9, e5, _, _, h5⟩ := ends_check h4 hr
  obtain ⟨_, l10, l11, e6, _, _, h6⟩ := ends_check h5 hr
  obtain ⟨_, l12, l13, e7, _, _, h7⟩ := ends_check h6 hr
  obtain ⟨_, l14, l15, e8, _, _, h8⟩ := ends_check h7 hr
  obtain ⟨_, l16, l17, e9, _, hinit, h9⟩ := ends_check h8 hr
  obtain ⟨l18, v, e10, hv⟩ := ends_awaitInit hinit
  obtain ⟨w, l19, e11, h10⟩ := ends_callBind.1 h9
  rw [getPin_beq_one w (by decide)] at h10
  cases hw : w.getLsbD rpDone with
  | true =>
    rw [hw] at h10
    obtain ⟨-, rfl⟩ := h10
    exact absurd hr (by decide)
  | false =>
    rw [hw] at h10
    obtain ⟨e12, -⟩ := h10
    refine ⟨l0 ++ (l2 ++ (l4 ++ (l6 ++ (l8 ++ (l10 ++ (l12 ++ (l14 ++ l18))))))), v, w, ?_, hv, hw⟩
    rw [e1, e2, e3, e4, e5, e6, e7, e8, e9, e10, e11, e12]
    simp only [List.append_assoc, List.cons_append, List.nil_append]
    rfl

/-! ## The data loop -/

theorem ends_fastInitTest (h : Ends fastInitTest l r) (hr : 0 ≤ r) :
    ∃ v, l = [reads v] ∧ v.getLsbD rpInit = true := by
  obtain ⟨v, l1, rfl, h1⟩ := ends_callBind.1 h
  rw [getPin_beq_zero v (by decide)] at h1
  cases hv : v.getLsbD rpInit with
  | true =>
    rw [hv] at h1
    obtain ⟨rfl, -⟩ := h1
    exact ⟨v, rfl, hv⟩
  | false =>
    rw [hv] at h1
    obtain ⟨-, rfl⟩ := h1
    exact absurd hr (by decide)

/-- The test of INIT in a plain round is that after a fast loop. -/
theorem ends_plainRoundEnd {k : Nat} (h : Ends (plainRoundEnd k) l r) (hr : 0 ≤ r) :
    ∃ t v, l = [⟨.stat fun st => { st with txSize := st.txSize + k }, ()⟩, ⟨.time, t⟩, reads v] ∧
      v.getLsbD rpInit = true := by
  obtain ⟨_, l1, rfl, h1⟩ := ends_callBind.1 h
  obtain ⟨t, l2, rfl, h2⟩ := ends_callBind.1 h1
  obtain ⟨v, rfl, hv⟩ := ends_fastInitTest h2 hr
  exact ⟨t, v, rfl, hv⟩

/-- A plain loop, known by its two cases. -/
theorem ends_plainLoop {round : BitVec 32 → BitVec 32 → P Int} {word : Nat → BitVec 32} {k : Nat}
    {loop : Nat → Nat → BitVec 32 → P (Option Nat)}
    (hend : ∀ i d', loop 0 i d' = ret (some i)) (hround : ∀ n i d', loop (n + 1) i d' =
      checkOr none (round (word i) d') (checkOr none (plainRoundEnd k) (loop n (i + k) (word i))))
    {d' : BitVec 32} (h : Ends (loop n i d') l (some m)) : WordsTaken round word k n i d' l := by
  induction n generalizing l i d' with
  | zero =>
    rw [hend] at h
    obtain ⟨rfl, -⟩ := h
    exact .nil
  | succ n ih =>
    rw [hround] at h
    rcases ends_checkOr h with ⟨hnone, -⟩ | ⟨r1, l1, l2, rfl, hr1, h1, h'⟩
    · cases hnone
    rcases ends_checkOr h' with ⟨hnone, -⟩ | ⟨r2, l3, l4, rfl, hr2, h2, hloop⟩
    · cases hnone
    obtain ⟨t, v, rfl, hv⟩ := ends_plainRoundEnd h2 hr2
    exact .cons h1 hr1 hv (ih hloop)

/-- A data loop that comes to its end has reached the size. -/
theorem ProgFn.ends_index (f : ProgFn) (h : Ends (f.body fuel data size) l (some m)) : size ≤ m := by
  rw [body_while] at h
  obtain ⟨r, l1, l2, -, hloop, -, hr⟩ := ends_bind.1 h
  obtain ⟨y, rfl, rfl⟩ := Option.map_eq_some_iff.1 hr.symm
  have hgo := ends_whileDo hloop
  exact Nat.le_of_not_lt fun hlt => by rw [ProgFn.going_iff.2 hlt] at hgo; cases hgo

/-- The whole data loop, and the test of INIT after it. -/
theorem ProgFn.ends_body (f : ProgFn) {loop test : List Ev} (h : Ends (f.body fuel data size) loop (some n))
    (ht : Ends f.initTest test r) (hr : 0 ≤ r) : size ≤ n ∧ f.InitHigh fuel data size loop test := by
  refine ⟨f.ends_index h, ?_⟩
  cases f with
  | sm8 => exact ⟨ends_plainLoop (fun _ _ => rfl) (fun _ _ _ => rfl) h, ht.1⟩
  | sm16 => exact ⟨ends_plainLoop (fun _ _ => rfl) (fun _ _ _ => rfl) h, ht.1⟩
  | sm8Fast => exact ends_fastInitTest ht hr
  | sm16Fast => exact ends_fastInitTest ht hr

/-! ## The wait for DONE -/

/-- A round either fails or has clocked. -/
theorem ends_donePulse {o : Option Int} (h : Ends (checkOr (some (-1)) (ficSetGpio fuel (rpPin rpCclk)) <|
    checkOr (some (-1)) (ficClrGpio fuel (rpPin rpCclk)) <| ret none) l o) : o = some (-1) ∨
    o = none ∧ Ends (donePulse fuel) l 0 := by
  rcases ends_checkOr h with ⟨hfail, -⟩ | ⟨r1, l1, l2, rfl, hr1, h1, h'⟩
  · exact .inl hfail
  rcases ends_checkOr h' with ⟨hfail, -⟩ | ⟨r2, l3, l4, rfl, hr2, h2, hret⟩
  · exact .inl hfail
  obtain ⟨rfl, rfl⟩ := hret
  refine .inr ⟨rfl, ends_bind.2 ⟨r1, l1, l3 ++ [], rfl, h1, ?_⟩⟩
  rw [if_neg (Int.not_lt.2 hr1)]
  refine ends_bind.2 ⟨r2, l3, [], rfl, h2, ?_⟩
  rw [if_neg (Int.not_lt.2 hr2)]
  exact ⟨rfl, rfl⟩

/-- One round of the wait. -/
def awaitDoneRound (fuel : Nat) (t1 : Int) : P (Option Int) := do
  let v ← issue .get
  if getPin v rpDone == 0#32 then do
    let t2 ← issue .time
    let w ← issue .get
    if getPin w rpInit == 0#32 || decide (t2 - t1 > commTimeout) then ret (some (-1)) else
    checkOr (some (-1)) (ficSetGpio fuel (rpPin rpCclk)) <|
    checkOr (some (-1)) (ficClrGpio fuel (rpPin rpCclk)) <|
    ret none
  else ret (some 0)

theorem ends_awaitDoneRound {t1 : Int} {o : Option Int} (h : Ends (awaitDoneRound fuel t1) l o) :
    o = some (-1) ∨ (o = some 0 ∧ ∃ v, l = [reads v] ∧ v.getLsbD rpDone = true) ∨
    (o = none ∧ ∃ v t w l', l = reads v :: ⟨.time, t⟩ :: reads w :: l' ∧ v.getLsbD rpDone = false ∧
      w.getLsbD rpInit = true ∧
      Ends (donePulse fuel) l' 0) := by
  obtain ⟨v, l1, rfl, h1⟩ := ends_callBind.1 h
  rw [getPin_beq_zero v (by decide)] at h1
  cases hv : v.getLsbD rpDone with
  | true =>
    rw [hv] at h1
    obtain ⟨rfl, rfl⟩ := h1
    exact .inr (.inl ⟨rfl, v, rfl, hv⟩)
  | false =>
    rw [hv] at h1
    obtain ⟨t2, l2, rfl, h2⟩ := ends_callBind.1 h1
    obtain ⟨w, l3, rfl, h3⟩ := ends_callBind.1 h2
    split at h3
    · obtain ⟨-, rfl⟩ := h3
      exact .inl rfl
    · next hw =>
      rw [getPin_beq_zero w (by decide), Bool.or_eq_true, not_or, Bool.not_eq_true,
        Bool.not_eq_false'] at hw
      exact (ends_donePulse h3).imp_right fun ⟨ho, hpulse⟩ => .inr ⟨ho, v, t2, w, l3, rfl, hv, hw.1, hpulse⟩

theorem ends_awaitDone (h : Ends (awaitDone fuel) l r) (hr : 0 ≤ r) :
    ∃ t wait, l = ⟨.time, t⟩ :: wait ∧ DoneAwaited fuel wait := by
  obtain ⟨t1, l1, rfl, h1⟩ := ends_callBind.1 h
  refine ⟨t1, l1, rfl, ?_⟩
  -- by the number of rounds, which the waits inside a round do not share
  have rounds : ∀ n l, Ends (loop (awaitDoneRound fuel t1) n) l r → DoneAwaited fuel l := by
    intro n
    induction n with
    | zero => exact fun l h => h.elim
    | succ n ih =>
      intro l h
      obtain ⟨o, l2, l3, rfl, hbody, hrest⟩ := ends_bind.1 h
      rcases ends_awaitDoneRound hbody
        with rfl | ⟨rfl, v, rfl, hv⟩ | ⟨rfl, v, t, w, l', rfl, hv, hw, hpulse⟩
      · obtain ⟨-, rfl⟩ := hrest
        exact absurd hr (by decide)
      · obtain ⟨rfl, -⟩ := hrest
        exact .high hv
      · exact .low hv hw hpulse (ih l3 hrest)
  exact rounds fuel l1 h1

/-- The wait is made in PM_NORMAL. -/
theorem ends_progWait {mask : BitVec 32} (h : Ends (progWait fuel mask .normal) l r) (hr : 0 ≤ r) :
    ∃ t wait l', l = ⟨.time, t⟩ :: (wait ++ l') ∧ DoneAwaited fuel wait := by
  obtain ⟨r1, l1, l2, rfl, hr1, h1, -⟩ := ends_check h hr
  obtain ⟨t, wait, rfl, hwait⟩ := ends_awaitDone h1 hr1
  exact ⟨t, wait, l2, rfl, hwait⟩

/-! ## The whole call -/

/-- Every exit. -/
theorem ends_progEnd {st : ProgStatus} {k : Nat} (h : Ends (progEnd st k) l n) (g : Gpio) (s : ProgStat) :
    n = k ∧ (g.after l).AllInput ∧ (s.after l).stat = st := by
  obtain ⟨_, l1, l2, rfl, h1, h2⟩ := ends_bind.1 h
  obtain ⟨_, l3, rfl, t, l4, rfl, _, l5, rfl, rfl, rfl⟩ := h2
  have hpins := after_setAllInput h1 g
  rw [Gpio.after_append, ProgStat.after_append]
  exact ⟨rfl, hpins, rfl⟩

/-- A call that has come to its second half. -/
theorem ends_progLoad {smap : ProgSmapMode} {lanes : Nat} {body : P (Option Nat)}
    (h : Ends (progLoad b fuel smap lanes body size pm) l (some n)) :
    ∃ l1 reset r l2 loop, l = l1 ++ (reset ++ (l2 ++ loop)) ∧ Ends (ficProgInit b fuel pm) reset r ∧
      0 ≤ r ∧ Ends body loop (some n) := by
  obtain ⟨_, l1, l2, rfl, -, h1⟩ := ends_bind.1 h
  rcases ends_checkOr h1 with ⟨hnone, -⟩ | ⟨r1, l3, l4, rfl, hr1, hsetup, h2⟩
  · cases hnone
  obtain ⟨r2, l5, l6, rfl, -, -, h3⟩ := ends_check hsetup hr1
  obtain ⟨r3, l7, l8, rfl, hr3, hreset, -⟩ := ends_check h3 hr1
  obtain ⟨t, l9, rfl, hbody⟩ := ends_callBind.1 h2
  refine ⟨l1 ++ l5, l7, r3, l8 ++ [⟨.time, t⟩], l9, ?_, hreset, hr3, hbody⟩
  simp only [List.append_assoc, List.cons_append, List.nil_append]

/-- The two exits: at the error label with 0, or behind the tests. -/
theorem ends_prog (f : ProgFn) (h : Ends (f.prog b fuel data size pm) l n) :
    ∃ l1 l2 st, l = l1 ++ l2 ∧ Ends (progEnd st n) l2 n ∧
      (st = .fail ∧ n = 0 ∨ st = .done ∧ Configured b fuel f data size pm l n) := by
  rw [ProgFn.prog_eq] at h
  obtain ⟨o, l1, l2, rfl, hload, hfinish⟩ := ends_bind.1 h
  have failed : ∀ {l : List Ev}, Ends (progEnd .fail 0) l n → n = 0 :=
    fun hend => (ends_progEnd hend World.start.gpio World.start.stat).1
  cases o with
  | none =>
    obtain rfl := failed hfinish
    exact ⟨l1, l2, .fail, rfl, hfinish, .inl ⟨rfl, rfl⟩⟩
  | some i =>
    obtain ⟨w, l3, l4, rfl, hwait, hend⟩ := ends_bind.1 hfinish
    split at hend
    · obtain rfl := failed hend
      exact ⟨l1 ++ l3, l4, .fail, by rw [List.append_assoc], hend, .inl ⟨rfl, rfl⟩⟩
    next hw =>
    obtain rfl := (ends_progEnd hend World.start.gpio World.start.stat).1
    refine ⟨l1 ++ l3, l4, .done, by rw [List.append_assoc], hend, .inr ⟨rfl, ?_⟩⟩
    have hw : 0 ≤ w := Int.not_lt.1 hw
    obtain ⟨l5, reset, r, l6, loop, rfl, hreset, hr, hbody⟩ := ends_progLoad hload
    obtain ⟨r1, test, l7, rfl, hr1, htest, hwait⟩ := ends_check hwait hw
    obtain ⟨hsize, hinit⟩ := f.ends_body hbody htest hr1
    refine ⟨l5, reset, r, l6, loop, test, l7 ++ l4,
      by simp only [List.append_assoc], hreset, hr, hbody, hsize, hinit, ?_⟩
    rintro rfl
    obtain ⟨t, wait, l8, rfl, hdone⟩ := ends_progWait hwait hw
    exact ⟨ends_ficProgInit hreset hr, t, wait, l8 ++ l4,
      by rw [List.cons_append, List.append_assoc], hdone⟩

/-- **Every return of a programming function** leaves all pins inputs and the status DONE or FAIL;
FAIL comes with 0, and DONE with the whole data loop and the tests of INIT and DONE passed. -/
theorem prog_settles (f : ProgFn) (h : Ends (f.prog b fuel data size pm) l n) (g : Gpio) (st : ProgStat) :
    Settles b fuel f data size pm l n g st := by
  obtain ⟨l1, l2, status, rfl, hend, hexit⟩ := ends_prog f h
  obtain ⟨-, hpins, hstat⟩ := ends_progEnd hend (g.after l1) (st.after l1)
  rw [← Gpio.after_append] at hpins
  rw [← ProgStat.after_append] at hstat
  rcases hexit with ⟨rfl, hzero⟩ | ⟨rfl, hconf⟩
  · exact ⟨hpins, .inr hstat, fun _ => hzero, fun hdone => nomatch hstat.symm.trans hdone⟩
  · exact ⟨hpins, .inl hstat, fun hfail => (nomatch hstat.symm.trans hfail), fun _ => hconf⟩

/-- All pins inputs, and the latch bit of INIT 1. -/
def World.initHigh : World Unit := { World.start with gpio := ⟨fun _ => 0#32, rpPin rpInit⟩ }

/-- The answers of an FPGA that starts up with the second clock: INIT reads high, DONE from then on,
and any other pin its latch.  The number counts the clocks. -/
def startupAnswer : (o : Op) → Gpio × Nat → Ans o × (Gpio × Nat)
  | .get, (g, k) =>
    (if k < 2 then (g.latch ||| rpPin rpInit) &&& ~~~rpPin rpDone
      else g.latch ||| rpPin rpInit ||| rpPin rpDone, (g, k))
  | .time, s => (0, s)
  | .clock, s => (0, s)
  | .stat _, s => ((), s)
  | .set v, (g, k) => ((), (g.set v, if v.getLsbD rpCclk && !g.lat rpCclk then k + 1 else k))
  | .setInput p, (g, k) => ((), (g.setInput p, k))
  | .setOutput p, (g, k) => ((), (g.setOutput p, k))
  | .clearSel r, (g, k) => ((), (g.clearSel r, k))
  | .clr v, (g, k) => ((), (g.clr v, k))

/-- One byte in PM_NORMAL: the reset, the byte, and two rounds of the wait for DONE. -/
theorem prog_settles_started : ∃ l, Ends (ProgFn.sm8.prog .mk2 3 (fun _ => 1#8) 1 .normal) l 1 ∧
    (World.start.stat.after l).stat = .done ∧
    Settles .mk2 3 .sm8 (fun _ => 1#8) 1 .normal l 1 World.start.gpio World.start.stat := by
  let s : Gpio × Nat := (World.start.gpio, 0)
  let l := (ProgFn.sm8.prog .mk2 3 (fun _ => 1#8) 1 .normal).trace startupAnswer 600 s
  have hl : Ends (ProgFn.sm8.prog .mk2 3 (fun _ => 1#8) 1 .normal) l 1 := trace_ends (by decide +kernel)
  have hdone : (World.start.stat.after l).stat = .done := by decide +kernel
  exact ⟨l, hl, hdone, prog_settles .sm8 hl World.start.gpio World.start.stat⟩

end Libfic2
