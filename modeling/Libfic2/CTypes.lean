import Mathlib.Data.Int.DivMod
import Mathlib.Data.BitVec

/-!
# Integer types of C

`int` has 32 bits and `off_t`, signed, 64; `size_t` and pointers have 32 or 64.  Where a
signed operation overflows, the result is taken modulo 2 ^ 64.
-/

namespace Libfic2

inductive DataModel | ilp32 | lp64
deriving DecidableEq, Repr

def DataModel.sizeBits : DataModel → Nat
  | ilp32 => 32
  | lp64 => 64

variable (m : DataModel)

/-- `a - b` on `size_t`. -/
def sizeSub (a b : Nat) : Nat := (a + (2 ^ m.sizeBits - b % 2 ^ m.sizeBits)) % 2 ^ m.sizeBits

/-- `off_t` plus `size_t`: on LP64 the sum is unsigned. -/
def offAdd (offset size : Nat) : Nat :=
  match m with
  | .ilp32 => offset + size
  | .lp64 => (offset + size) % 2 ^ 64

/-- It is defined: on ILP32 the sum is signed. -/
def OffAddDefined (offset size : Nat) : Prop := m = .ilp32 → offset + size < 2 ^ 63

/-- Conversion to `int`. -/
def cInt (x : Nat) : Int := (BitVec.ofNat 32 x).toInt

/-- Conversion to `off_t`. -/
def offT (x : Int) : Int := x.bmod (2 ^ 64)

section
variable {m}

theorem sizeSub_eq {a b : Nat} (hb : b ≤ a) (ha : a < 2 ^ 32) : sizeSub m a b = a - b := by
  cases m <;> simp only [sizeSub, DataModel.sizeBits] <;> omega

theorem offAdd_eq {a b : Nat} (h : a + b < 2 ^ 64) : offAdd m a b = a + b := by
  cases m with
  | ilp32 => rfl
  | lp64 => exact Nat.mod_eq_of_lt h

theorem cInt_eq {x : Nat} (h : x < 2 ^ 31) : cInt x = x := by
  unfold cInt
  rw [BitVec.toInt_ofNat']
  exact Int.bmod_eq_of_le (by omega) (by omega)

theorem offT_eq {x : Int} (h : - 2 ^ 63 ≤ x) (h' : x < 2 ^ 63) : offT x = x :=
  Int.bmod_eq_of_le (by omega) (by omega)

theorem offT_emod (x : Int) : offT x % 2 ^ 64 = x % 2 ^ 64 := Int.bmod_emod

theorem offT_of_emod {x : Int} (h : x % 2 ^ 64 < 2 ^ 63) : offT x = x % 2 ^ 64 := by
  have heq : offT (x % 2 ^ 64) = offT x := Int.emod_bmod x (2 ^ 64)
  rw [← heq]
  exact offT_eq (by omega) h

end

end Libfic2
