import Mathlib.Data.Int.Basic
import Mathlib.Data.Nat.Bitwise
import Mathlib.Tactic.Linarith

/-!
# 64-bit machine integers

The conversions between signed and unsigned 64-bit integers keep the bits, so they are exact up
to multiples of `2 ^ 64`. An arithmetic result is exact when it fits, and only then.
-/

namespace Machine64

/-- `i64::MIN`. -/
abbrev minValue : Int := -(2 ^ 63)

/-- `i64::MAX`. -/
abbrev maxValue : Int := 2 ^ 63 - 1

theorem minValue_le (x : Int64) : minValue ≤ x.toInt := Int64.le_toInt x

theorem le_maxValue (x : Int64) : x.toInt ≤ maxValue := by
  have h := Int64.toInt_lt x
  unfold maxValue
  omega

/-- `u64 as i64`. -/
theorem toInt_toInt64 (x : UInt64) :
    x.toInt64.toInt = if x.toNat < 2 ^ 63 then (x.toNat : Int) else x.toNat - 2 ^ 64 := by
  have h : x.toInt64.toInt = (x.toNat : Int).bmod (2 ^ 64) :=
    BitVec.toInt_eq_toNat_bmod x.toBitVec
  have hlt := x.toNat_lt
  rw [h]
  split
  · exact Int.bmod_eq_of_le (by omega) (by omega)
  · rw [← Int.sub_bmod_right]
    exact Int.bmod_eq_of_le (by omega) (by omega)

/-- `i64 as u64`. -/
theorem toNat_toUInt64 (x : Int64) :
    (x.toUInt64.toNat : Int) = if 0 ≤ x.toInt then x.toInt else x.toInt + 2 ^ 64 := by
  have h : x.toInt = if x.toUInt64.toNat < 2 ^ 63 then (x.toUInt64.toNat : Int)
      else x.toUInt64.toNat - 2 ^ 64 := toInt_toInt64 x.toUInt64
  have hlt := x.toUInt64.toNat_lt
  split at h <;> split <;> omega

/-- The 64-bit result of an exact one. -/
def wrap (x : Int) : Int := x.bmod (2 ^ 64)

theorem wrap_of_mem {x : Int} (hmin : minValue ≤ x) (hmax : x ≤ maxValue) : wrap x = x := by
  unfold minValue at hmin
  unfold maxValue at hmax
  exact Int.bmod_eq_of_le (by omega) (by omega)

/-- A result is exact when it fits, and only then. -/
theorem wrap_eq_iff {x : Int} : wrap x = x ↔ minValue ≤ x ∧ x ≤ maxValue := by
  constructor
  · intro h
    have hmin : -(2 ^ 64 / 2 : Int) ≤ x.bmod (2 ^ 64) := Int.le_bmod (by decide)
    have hmax : x.bmod (2 ^ 64) < (2 ^ 64 + 1) / 2 := Int.bmod_lt (by decide)
    unfold wrap at h
    unfold minValue maxValue
    omega
  · exact fun h => wrap_of_mem h.1 h.2

/-- The one sum with one that leaves the range comes back at its other end. -/
theorem wrap_maxValue_succ : wrap (maxValue + 1) = minValue := by decide

/-- `i64 as usize`. -/
def asUsize (x : Int) : Nat := (x % 2 ^ 64).toNat

theorem asUsize_of_nonneg {x : Int} (hmin : 0 ≤ x) (hmax : x < 2 ^ 64) : asUsize x = x.toNat := by
  rw [asUsize, Int.emod_eq_of_lt hmin hmax]

theorem asUsize_natCast {n : Nat} (h : n < 2 ^ 64) : asUsize n = n := by
  rw [asUsize_of_nonneg (by omega) (by omega), Int.toNat_natCast]

theorem asUsize_of_neg {x : Int} (hmin : -(2 ^ 64) ≤ x) (hmax : x < 0) :
    asUsize x = (x + 2 ^ 64).toNat := by
  rw [asUsize, ← Int.add_emod_right, Int.emod_eq_of_lt (by omega) (by omega)]

/-- A bit of an unsigned integer, as it is masked out after a shift. -/
theorem shiftRight_and_one (x : UInt64) {k : Nat} (h : k < 64) :
    (x >>> UInt64.ofNat k) &&& 1 = 1 ↔ x.toNat.testBit k = true := by
  have hshift : (UInt64.ofNat k).toNat % 64 = k := by
    rw [UInt64.toNat_ofNat']
    omega
  rw [← UInt64.toNat_inj, UInt64.toNat_and, UInt64.toNat_shiftRight, hshift,
    Nat.testBit_eq_decide_div_mod_eq, decide_eq_true_eq, Nat.shiftRight_eq_div_pow]
  exact Iff.of_eq (congrArg (· = 1) (Nat.and_one_is_mod _))

end Machine64
