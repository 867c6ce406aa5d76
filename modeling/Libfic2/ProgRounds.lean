import Libfic2.Driver.Rounds
import Libfic2.Signals

/-!
# The data loops as loops of rounds

`ProgFn.round` is one round of a data loop of the programming functions; its loop
variables are the index and the previous word.  `body_while` says that all four loops are
made of such rounds, so that what concerns every round, or every operation, is shown for
the rounds: a data loop changes CCLK and the data pins and counts, and nothing else
(`ops_body`).
-/

namespace Libfic2

open Driver Prog

/-! ## The rounds -/

namespace ProgFn

/-- The bytes of a word. -/
def bytes : ProgFn → Nat
  | sm8 | sm8Fast => 1
  | sm16 | sm16Fast => 2

/-- What a loop keeps of the previous word. -/
@[reducible] def Prev : ProgFn → Type
  | sm8 | sm16 => BitVec 32
  | sm8Fast => BitVec 8
  | sm16Fast => BitVec 8 × BitVec 8

/-- Its value at the start. -/
def prev0 : (f : ProgFn) → f.Prev
  | sm8 | sm16 => 0#32
  | sm8Fast => 0#8
  | sm16Fast => (0#8, 0#8)

/-- The test of the loop: `i < size`. -/
def going (size : Nat) (f : ProgFn) (x : Nat × f.Prev) : Bool := decide (x.1 < size)

/-- One round of the loop, from `(i, _d)` to the next ones. -/
def round (fuel : Nat) (data : Mem) : (f : ProgFn) → Nat × f.Prev → P (Option (Nat × f.Prev))
  | sm8, (i, d') =>
    checkOr none (plainRound8 fuel (word8 data i) d') <|
    checkOr none (plainRoundEnd 1) <|
    ret (some (i + 1, word8 data i))
  | sm16, (i, d') =>
    checkOr none (plainRound16 fuel (word16 data i) d') <|
    checkOr none (plainRoundEnd 2) <|
    ret (some (i + 2, word16 data i))
  | sm8Fast, (i, d') => do
    let k ← fastRound8 fuel data i d'
    addTx 1
    ret (some (i + k + 1, data i))
  | sm16Fast, (i, d') => do
    let k ← fastRound16 fuel data i d'.1 d'.2
    addTx 2
    ret (some (i + k + 2, (data (i + 1), data i)))

theorem going_iff {size : Nat} {f : ProgFn} {i : Nat} {d' : f.Prev} :
    f.going size (i, d') = true ↔ i < size :=
  decide_eq_true_iff

end ProgFn

section
variable (fuel : Nat) (data : Mem) {size n m i : Nat}

/-- The index at the end of a loop. -/
def endIndex {X : Type} (r : Option (Nat × X)) : P (Option Nat) := ret (r.map Prod.fst)

/-- A round of a plain loop and what follows; a jump out of the round is a jump out of the loop. -/
theorem plainRound_bind {X Y : Type} (p q : P Int) (y : X) (f : Option X → P (Option Y))
    (hf : f none = ret none) :
    checkOr none p (checkOr none q (ret (some y))) >>=
      f = checkOr none p (checkOr none q (f (some y))) := by
  rw [checkOr_bind, checkOr_bind, hf]
  rfl

theorem plainLoop8_while (hi : i + n = size) (hm : n < m) (d' : BitVec 32) : plainLoop8 fuel data n i d' =
    whileDo (ProgFn.sm8.going size) (ProgFn.sm8.round fuel data) m (i, d') >>= endIndex := by
  obtain ⟨m, rfl⟩ : ∃ j, m = j + 1 := ⟨m - 1, by omega⟩
  induction n generalizing i d' m with
  | zero =>
    rw [whileDo, if_neg (mt ProgFn.going_iff.1 (by omega))]
    rfl
  | succ n ih =>
    obtain ⟨m, rfl⟩ : ∃ j, m = j + 1 := ⟨m - 1, by omega⟩
    rw [whileDo, if_pos (ProgFn.going_iff.2 (by omega)), plainLoop8,
      ih (i := i + 1) (by omega) _ m (by omega), Prog.bind_assoc]
    exact (plainRound_bind (plainRound8 fuel (word8 data i) d') (plainRoundEnd 1) (i + 1, word8 data i)
      (fun r => r.elim (ret none) (whileDo (ProgFn.sm8.going size) (ProgFn.sm8.round fuel data)
      (m + 1)) >>= endIndex) rfl).symm

theorem plainLoop16_while (hi : n = (size + 1 - i) / 2) (hm : n < m) (d' : BitVec 32) :
    plainLoop16 fuel data n i d' =
      whileDo (ProgFn.sm16.going size) (ProgFn.sm16.round fuel data) m (i, d') >>= endIndex := by
  obtain ⟨m, rfl⟩ : ∃ j, m = j + 1 := ⟨m - 1, by omega⟩
  induction n generalizing i d' m with
  | zero =>
    rw [whileDo, if_neg (mt ProgFn.going_iff.1 (by omega))]
    rfl
  | succ n ih =>
    obtain ⟨m, rfl⟩ : ∃ j, m = j + 1 := ⟨m - 1, by omega⟩
    rw [whileDo, if_pos (ProgFn.going_iff.2 (by omega)), plainLoop16,
      ih (i := i + 2) (by omega) _ m (by omega), Prog.bind_assoc]
    exact (plainRound_bind (plainRound16 fuel (word16 data i) d') (plainRoundEnd 2) (i + 2, word16 data i)
      (fun r => r.elim (ret none) (whileDo (ProgFn.sm16.going size) (ProgFn.sm16.round fuel data)
      (m + 1)) >>= endIndex) rfl).symm

theorem fastLoop8_while (d' : BitVec 8) : fastLoop8 fuel data size n i d' =
    whileDo (ProgFn.sm8Fast.going size) (ProgFn.sm8Fast.round fuel data) n (i, d') >>= endIndex := by
  induction n generalizing i d' with
  | zero => rfl
  | succ n ih =>
    rw [whileDo, fastLoop8]
    by_cases hlt : i < size
    · rw [if_pos hlt, if_pos (ProgFn.going_iff.2 hlt), Prog.bind_assoc]
      unfold ProgFn.round
      rw [Prog.bind_assoc]
      refine congrArg (fastRound8 fuel data i d' >>= ·) (funext fun k => ?_)
      exact congrArg (addTx 1 >>= ·) (funext fun _ => ih _)
    · rw [if_neg hlt, if_neg (mt ProgFn.going_iff.1 hlt)]
      rfl

theorem fastLoop16_while (hi' lo' : BitVec 8) : fastLoop16 fuel data size n i hi' lo' =
    whileDo (ProgFn.sm16Fast.going size) (ProgFn.sm16Fast.round fuel data) n (i, (hi', lo')) >>=
      endIndex := by
  induction n generalizing i hi' lo' with
  | zero => rfl
  | succ n ih =>
    rw [whileDo, fastLoop16]
    by_cases hlt : i < size
    · rw [if_pos hlt, if_pos (ProgFn.going_iff.2 hlt), Prog.bind_assoc]
      unfold ProgFn.round
      rw [Prog.bind_assoc]
      refine congrArg (fastRound16 fuel data i hi' lo' >>= ·) (funext fun k => ?_)
      exact congrArg (addTx 2 >>= ·) (funext fun _ => ih _ _)
    · rw [if_neg hlt, if_neg (mt ProgFn.going_iff.1 hlt)]
      rfl

/-- The data loop is made of these rounds. -/
theorem body_while (f : ProgFn) (size : Nat) : f.body fuel data size =
    whileDo (f.going size) (f.round fuel data) (size + 1) (0, f.prev0) >>= endIndex := by
  cases f with
  | sm8 => exact plainLoop8_while fuel data (by omega) (by omega) _
  | sm16 => exact plainLoop16_while fuel data (by omega) (by omega) _
  | sm8Fast => exact fastLoop8_while fuel data _
  | sm16Fast => exact fastLoop16_while fuel data _ _

end

/-! ## What the loops do -/

theorem lowPin_cclk (f : ProgFn) : smLowPin f.lanes rpCclk = true := rfl

theorem within_mask {S : Nat → Prop} (f : ProgFn) (h : ∀ p, 8 ≤ p → p < 8 + f.lanes → S p) :
    Within S f.mask := by
  cases f with
  | sm8 => exact within_mask8 h
  | sm16 => exact within_mask16 h
  | sm8Fast => exact within_mask8 h
  | sm16Fast => exact within_mask16 h

theorem within_lowPins (f : ProgFn) : Within (fun p => smLowPin f.lanes p = true) f.mask := by
  refine within_mask f fun p h1 h2 => ?_
  unfold smLowPin
  rw [decide_eq_true (by simp only [rpCd]; omega), decide_eq_true (by simp only [rpCd]; omega),
    Bool.and_true, Bool.or_true]

/-- `Pr` allows GET_GPIO, `time`, and setting and clearing pins of `S`. -/
structure DrivesPins (Pr : Op → Prop) (S : Nat → Prop) : Prop where
  get : Pr .get
  time : Pr .time
  set : ∀ v, Within S v → Pr (.set v)
  clr : ∀ v, Within S v → Pr (.clr v)

section
variable {Pr : Op → Prop} {S : Nat → Prop} {mask v : BitVec 32} {fuel : Nat}

section
variable (hP : DrivesPins Pr S) (hv : Within S v)
include hP hv

theorem ops_set : Ops Pr (issue (.set v)) := ops_call _ (hP.set v hv)
theorem ops_clr : Ops Pr (issue (.clr v)) := ops_call _ (hP.clr v hv)

theorem ops_ficSetGpio : Ops Pr (ficSetGpio fuel v) :=
  ops_bind (ops_set hP hv) fun _ => ops_pollTimed fuel hP.get hP.time _
theorem ops_ficClrGpio : Ops Pr (ficClrGpio fuel v) :=
  ops_bind (ops_clr hP hv) fun _ => ops_pollTimed fuel hP.get hP.time _
theorem ops_ficSetGpioFast : Ops Pr (ficSetGpioFast fuel v) :=
  ops_bind (ops_set hP hv) fun _ => ops_spin fuel hP.get _
theorem ops_ficClrGpioFast : Ops Pr (ficClrGpioFast fuel v) :=
  ops_bind (ops_clr hP hv) fun _ => ops_spin fuel hP.get _
theorem ops_gpioHold : Ops Pr (gpioHold v) := ops_forDo _ _ fun _ _ _ => ops_set hP hv

end

variable (hP : DrivesPins Pr S) (hc : S rpCclk)
include hP hc

theorem ops_toggleCclk (n : Nat) : Ops Pr (toggleCclk n) := by
  refine ops_forDo _ _ fun _ _ _ => ?_
  refine ops_bind (ops_forDo _ _ fun _ _ _ => ops_clr hP (within_pin hc)) fun _ => ?_
  exact ops_forDo _ _ fun _ _ _ => ops_set hP (within_pin hc)

theorem ops_fastRepeat : Ops Pr (fastRepeat fuel) :=
  ops_bind (ops_ficClrGpioFast hP (within_pin hc)) fun _ => ops_gpioHold hP (within_pin hc)

theorem ops_fastWrite (hm : Within S mask) (db : BitVec 32) : Ops Pr (fastWrite db mask) :=
  ops_bind (ops_clr hP (within_or (within_and hm) (within_pin hc))) fun _ =>
    ops_bind (ops_set hP (within_and hm)) fun _ =>
    ops_gpioHold hP (within_or (within_and hm) (within_pin hc))

theorem ops_plainRound8 (hm : Within S mask8) (d d' : BitVec 32) : Ops Pr (plainRound8 fuel d d') := by
  unfold plainRound8
  split
  · exact ops_bind (ops_ficClrGpioFast hP (within_pin hc)) fun _ =>
      ops_bind (ops_set hP (within_pin hc)) fun _ => trivial
  · exact ops_bind (ops_clr hP (within_or (within_and hm) (within_pin hc))) fun _ =>
      ops_bind (ops_set hP (within_and hm)) fun _ =>
      ops_bind (ops_set hP (within_or (within_and hm) (within_pin hc))) fun _ => trivial

theorem ops_plainRound16 (hm : Within S mask16) (d d' : BitVec 32) : Ops Pr (plainRound16 fuel d d') := by
  unfold plainRound16
  split
  · exact ops_bind (ops_ficClrGpioFast hP (within_pin hc)) fun _ =>
      ops_bind (ops_ficSetGpioFast hP (within_pin hc)) fun _ => trivial
  · exact ops_bind (ops_ficClrGpio hP (within_or (within_and hm) (within_pin hc))) fun _ =>
      ops_bind (ops_ficSetGpio hP (within_and hm)) fun _ =>
      ops_bind (ops_ficSetGpio hP (within_or (within_and hm) (within_pin hc))) fun _ => trivial

theorem ops_fastRound8 (hm : Within S mask8) (data : Mem) (i : Nat) (d' : BitVec 8) :
    Ops Pr (fastRound8 fuel data i d') := by
  have hburst : ∀ n k : Nat, Ops Pr (do toggleCclk n; ret k : P Nat) :=
    fun n _ => ops_bind (ops_toggleCclk hP hc n) fun _ => trivial
  unfold fastRound8
  dsimp only
  split
  · split
    · split
      · split
        · split <;> exact hburst _ _
        · exact hburst _ _
      · exact hburst _ _
    · exact ops_bind (ops_fastRepeat hP hc) fun _ => trivial
  · exact ops_bind (ops_fastWrite hP hc hm _) fun _ => trivial

theorem ops_fastRound16 (hm : Within S mask16) (data : Mem) (i : Nat) (hi' lo' : BitVec 8) :
    Ops Pr (fastRound16 fuel data i hi' lo') := by
  have hburst : ∀ n k : Nat, Ops Pr (do toggleCclk n; ret k : P Nat) :=
    fun n _ => ops_bind (ops_toggleCclk hP hc n) fun _ => trivial
  unfold fastRound16
  dsimp only
  split
  · split
    · split <;> exact hburst _ _
    · exact ops_bind (ops_fastRepeat hP hc) fun _ => trivial
  · exact ops_bind (ops_fastWrite hP hc hm _) fun _ => trivial

variable (hcount : ∀ n, Pr (.stat fun st => { st with txSize := st.txSize + n }))
include hcount

omit hc in
theorem ops_plainRoundEnd (n : Nat) : Ops Pr (plainRoundEnd n) := by
  refine ops_bind (ops_call _ (hcount n)) fun _ => ops_bind (ops_call _ hP.time) fun _ =>
    ops_bind (ops_call _ hP.get) fun v => ?_
  split <;> trivial

variable (data : Mem) (f : ProgFn) (hm : Within S f.mask)
include hm

theorem ops_round (x : Nat × f.Prev) : Ops Pr (f.round fuel data x) := by
  have hadd : ∀ n, Ops Pr (addTx n) := fun n => ops_call _ (hcount n)
  cases f with
  | sm8 =>
      exact ops_checkOr (ops_plainRound8 hP hc hm _ _) (ops_checkOr (ops_plainRoundEnd hP hcount 1) trivial)
  | sm16 =>
      exact ops_checkOr (ops_plainRound16 hP hc hm _ _)
        (ops_checkOr (ops_plainRoundEnd hP hcount 2) trivial)
  | sm8Fast => exact ops_bind (ops_fastRound8 hP hc hm _ _ _) fun _ => ops_bind (hadd 1) fun _ => trivial
  | sm16Fast =>
      exact ops_bind (ops_fastRound16 hP hc hm _ _ _ _) fun _ => ops_bind (hadd 2) fun _ => trivial

/-- The data loop changes CCLK and the data pins and counts. -/
theorem ops_body (size : Nat) : Ops Pr (f.body fuel data size) := by
  rw [body_while]
  exact ops_bind (ops_whileDo (ops_round hP hc hcount data f hm) _ _) fun _ => trivial

end

end Libfic2
