import Mathlib.Logic.Function.Basic

/-!
# Words read bit by bit

`ofBits f n` is the `n`-bit word whose bit `i` is `f i`; `bit p` is the mask of
bit `p`.  The lemmas reduce masks, shifts and three-bit fields of 32-bit
registers to statements about single bits.
-/

namespace Driver

/-- The word of width `n` with bit `i` equal to `f i`. -/
def ofBits (f : Nat → Bool) : (n : Nat) → BitVec n
  | 0 => 0#0
  | n + 1 => BitVec.cons (f n) (ofBits f n)

@[simp] theorem getLsbD_ofBits (f : Nat → Bool) (n i : Nat) :
    (ofBits f n).getLsbD i = (decide (i < n) && f i) := by
  induction n with
  | zero => simp [ofBits]
  | succ n ih =>
    rw [ofBits, BitVec.getLsbD_cons, ih]
    by_cases h : i = n
    · subst h; simp
    · rw [if_neg h]
      congr 1
      exact decide_eq_decide.2 (by omega)

/-- `1 << p`. -/
def bit (p : Nat) : BitVec 32 := 1#32 <<< p

@[simp] theorem getLsbD_bit (p i : Nat) : (bit p).getLsbD i = (decide (i < 32) && decide (i = p)) := by
  unfold bit
  rw [BitVec.getLsbD_shiftLeft, BitVec.getLsbD_one]
  by_cases h : i = p
  · subst h; simp
  · by_cases h32 : i < 32
    · by_cases hp : i < p
      · simp [hp, h]
      · have : ¬ i - p = 0 := by omega
        simp [h, this]
    · simp [h32]

theorem getLsbD_bit_of_ne {p i : Nat} (h : i ≠ p) : (bit p).getLsbD i = false := by
  rw [getLsbD_bit, decide_eq_false h, Bool.and_false]

theorem getLsbD_seven (i : Nat) : (7#32).getLsbD i = decide (i < 3) := by
  have : (7#32).getLsbD i = Nat.testBit (2 ^ 3 - 1) i := rfl
  rw [this, Nat.testBit_two_pow_sub_one]

/-! ## Three-bit fields -/

/-- Field `k` of a register of ten three-bit fields. -/
def field (r : BitVec 32) (k : Nat) : BitVec 3 := r.extractLsb' (k * 3) 3

theorem getLsbD_field (r : BitVec 32) (k i : Nat) :
    (field r k).getLsbD i = (decide (i < 3) && r.getLsbD (k * 3 + i)) :=
  BitVec.getLsbD_extractLsb' _ _ _ _

@[simp] theorem field_zero (k : Nat) : field 0#32 k = 0#3 := by
  apply BitVec.eq_of_getLsbD_eq
  intro i _
  simp [getLsbD_field]

/-- Clearing field `k`. -/
theorem field_clear (r : BitVec 32) (k j : Nat) :
    field (r &&& ~~~(7#32 <<< (k * 3))) j = if j = k then 0#3 else field r j := by
  apply BitVec.eq_of_getLsbD_eq
  intro i hi
  rw [getLsbD_field, BitVec.getLsbD_and, BitVec.getLsbD_not, BitVec.getLsbD_shiftLeft, getLsbD_seven]
  by_cases h32 : j * 3 + i < 32
  · by_cases h : j = k
    · subst h
      simp [h32, hi]
    · rw [if_neg h, getLsbD_field]
      have : j * 3 + i < k * 3 ∨ ¬ j * 3 + i - k * 3 < 3 := by omega
      rcases this with hc | hc <;> simp [h32, hi, hc]
  · have hout : r.getLsbD (j * 3 + i) = false := BitVec.getLsbD_of_ge _ _ (by omega)
    split
    · simp [hout]
    · simp [getLsbD_field, hout]

/-- Setting the low bit of field `k`. -/
theorem field_setLow (r : BitVec 32) (k j : Nat) (hk : k < 10) :
    field (r ||| (1#32 <<< (k * 3))) j = if j = k then field r j ||| 1#3 else field r j := by
  apply BitVec.eq_of_getLsbD_eq
  intro i hi
  rw [show (1#32 <<< (k * 3)) = bit (k * 3) from rfl, getLsbD_field, BitVec.getLsbD_or, getLsbD_bit]
  by_cases h : j = k
  · subst h
    rw [if_pos rfl, BitVec.getLsbD_or, getLsbD_field, BitVec.getLsbD_one]
    have h32 : j * 3 + i < 32 := by omega
    by_cases h0 : i = 0
    · subst h0; simp [show j * 3 < 32 by omega]
    · simp [hi, h0]
  · rw [if_neg h, getLsbD_field]
    have : ¬ j * 3 + i = k * 3 := by omega
    simp [hi, this]

/-! ## Digits -/

/-- The two halves of a concatenation. -/
theorem append_extract {n m : Nat} (x : BitVec n) (y : BitVec m) :
    (x ++ y).extractLsb' 0 m = y ∧ (x ++ y).extractLsb' m n = x := by
  constructor
  · apply BitVec.eq_of_getLsbD_eq
    intro i hi
    rw [BitVec.getLsbD_extractLsb', BitVec.getLsbD_append, Nat.zero_add, if_pos hi,
      decide_eq_true hi, Bool.true_and]
  · apply BitVec.eq_of_getLsbD_eq
    intro i hi
    rw [BitVec.getLsbD_extractLsb', BitVec.getLsbD_append, if_neg (by omega), Nat.add_sub_cancel_left,
      decide_eq_true hi, Bool.true_and]

theorem extract_append {n m : Nat} (x : BitVec (n + m)) : x.extractLsb' m n ++ x.extractLsb' 0 m = x := by
  apply BitVec.eq_of_getLsbD_eq
  intro i hi
  rw [BitVec.getLsbD_append]
  split
  · next h => rw [BitVec.getLsbD_extractLsb', Nat.zero_add, decide_eq_true h, Bool.true_and]
  · next h =>
    rw [BitVec.getLsbD_extractLsb', decide_eq_true (by omega), Bool.true_and, show m + (i - m) = i by omega]

/-- A word of four digits of `n` bits. -/
def ofDigits {n : Nat} (d3 d2 d1 d0 : BitVec n) : BitVec (n + n + n + n) := d3 ++ d2 ++ d1 ++ d0

/-- Digit `k`. -/
def digit {w : Nat} (n : Nat) (x : BitVec w) (k : Nat) : BitVec n := x.extractLsb' (n * k) n

theorem getLsbD_digit {w n : Nat} (x : BitVec w) (k i : Nat) (hi : i < n) :
    (digit n x k).getLsbD i = x.getLsbD (n * k + i) := by
  unfold digit
  rw [BitVec.getLsbD_extractLsb', decide_eq_true hi, Bool.true_and]

theorem ofDigits_digit {n : Nat} (x : BitVec (n + n + n + n)) :
    ofDigits (digit n x 3) (digit n x 2) (digit n x 1) (digit n x 0) = x := by
  apply BitVec.eq_of_getLsbD_eq
  intro i hi
  unfold ofDigits
  rw [BitVec.getLsbD_append]
  split
  · next h => rw [getLsbD_digit _ _ _ h]; congr 1; omega
  · rw [BitVec.getLsbD_append]
    split
    · next h => rw [getLsbD_digit _ _ _ h]; congr 1; omega
    · rw [BitVec.getLsbD_append]
      split
      · next h => rw [getLsbD_digit _ _ _ h]; congr 1; omega
      · rw [getLsbD_digit _ _ _ (by omega)]; congr 1; omega

theorem digit_ofDigits {n : Nat} (d3 d2 d1 d0 : BitVec n) :
    digit n (ofDigits d3 d2 d1 d0) 0 = d0 ∧ digit n (ofDigits d3 d2 d1 d0) 1 = d1 ∧
      digit n (ofDigits d3 d2 d1 d0) 2 = d2 ∧ digit n (ofDigits d3 d2 d1 d0) 3 = d3 := by
  unfold ofDigits
  refine ⟨?_, ?_, ?_, ?_⟩
  · apply BitVec.eq_of_getLsbD_eq
    intro i hi
    rw [getLsbD_digit _ _ _ hi, BitVec.getLsbD_append, if_pos (by omega)]
    congr 1; omega
  · apply BitVec.eq_of_getLsbD_eq
    intro i hi
    rw [getLsbD_digit _ _ _ hi, BitVec.getLsbD_append, if_neg (by omega),
      BitVec.getLsbD_append, if_pos (by omega)]
    congr 1; omega
  · apply BitVec.eq_of_getLsbD_eq
    intro i hi
    rw [getLsbD_digit _ _ _ hi, BitVec.getLsbD_append, if_neg (by omega),
      BitVec.getLsbD_append, if_neg (by omega), BitVec.getLsbD_append, if_pos (by omega)]
    congr 1; omega
  · apply BitVec.eq_of_getLsbD_eq
    intro i hi
    rw [getLsbD_digit _ _ _ hi, BitVec.getLsbD_append, if_neg (by omega),
      BitVec.getLsbD_append, if_neg (by omega), BitVec.getLsbD_append, if_neg (by omega)]
    congr 1; omega

theorem getLsbD_fifteen (i : Nat) : (0xf#32).getLsbD i = decide (i < 4) := by
  have : (0xf#32).getLsbD i = Nat.testBit (2 ^ 4 - 1) i := rfl
  rw [this, Nat.testBit_two_pow_sub_one]

/-- Masking and shifting out a hexadecimal digit. -/
theorem nibble_eq {w : Nat} (x : BitVec w) (k : Nat) (hk : 4 * k + 4 ≤ 32) :
    (x.setWidth 32 &&& (0xf#32 <<< (4 * k))) >>> (4 * k) = (digit 4 x k).setWidth 32 := by
  apply BitVec.eq_of_getLsbD_eq
  intro i hi
  rw [BitVec.getLsbD_ushiftRight, BitVec.getLsbD_and, BitVec.getLsbD_shiftLeft, BitVec.getLsbD_setWidth,
    BitVec.getLsbD_setWidth, getLsbD_fifteen, Nat.add_sub_cancel_left, decide_eq_true hi, Bool.true_and]
  by_cases h4 : i < 4
  · rw [getLsbD_digit _ _ _ h4]
    simp [h4, show 4 * k + i < 32 by omega]
  · rw [BitVec.getLsbD_of_ge (digit 4 x k) i (by omega)]
    simp [h4]

end Driver
