import Mathlib

/-!
# Whole numbers as floats

A double holds every whole number below `2 ^ 53` in absolute value exactly, so that floats read
from such numbers compare as the numbers do. The number `m` is held as the mantissa
`m · 2 ^ (52 - log2 m)`, which has its leading bit at place 52, with the exponent `log2 m - 52`.
-/

namespace WholeFloats

open Float.Model Float.Model.UnpackedFloat

/-! ### Packing -/

/-- The mantissa of a number, with its leading bit at place 52. -/
def leading (m : Nat) : Nat := m * 2 ^ (52 - m.log2)

variable {m n : Nat}

theorem leading_pos (hm : 0 < m) : 0 < leading m := Nat.mul_pos hm (Nat.two_pow_pos _)

theorem log2_le (hm : 0 < m) (hsmall : m < 2 ^ 53) : m.log2 ≤ 52 := by
  have := (Nat.log2_lt hm.ne').mpr hsmall
  omega

theorem log2_leading (hm : 0 < m) (hsmall : m < 2 ^ 53) : (leading m).log2 = 52 := by
  have hlog := log2_le hm hsmall
  have hlow : 2 ^ m.log2 ≤ m := Nat.log2_self_le hm.ne'
  have hhigh : m < 2 ^ (m.log2 + 1) := Nat.lt_log2_self
  rw [Nat.log2_eq_iff (leading_pos hm).ne', leading]
  constructor
  · calc 2 ^ 52 = 2 ^ m.log2 * 2 ^ (52 - m.log2) := by rw [← pow_add]; congr 1; omega
      _ ≤ m * 2 ^ (52 - m.log2) := Nat.mul_le_mul_right _ hlow
  · calc m * 2 ^ (52 - m.log2) < 2 ^ (m.log2 + 1) * 2 ^ (52 - m.log2) :=
        Nat.mul_lt_mul_of_pos_right hhigh (Nat.two_pow_pos _)
      _ = 2 ^ (52 + 1) := by rw [← pow_add]; congr 1; omega

/-- A mantissa of 53 bits with an exponent in the range is kept by packing. -/
theorem unpack_pack_of_log2 (s : Sign) {e : Int} (hm : 0 < m) (hlog : m.log2 = 52)
    (hmin : -1074 ≤ e) (hmax : e ≤ 971) :
    (Float.Model.pack (.finite s m e hm)).unpack = .finite s m e hm := by
  obtain ⟨b, hb⟩ : ∃ b : Nat, (b : Int) = e + 1075 := ⟨(e + 1075).toNat, by omega⟩
  have hbias : (e + Format.binary64.exponentBias +
      Format.binary64.mantissaBitsWithoutImplicit).toNat = b := by
    have : (Format.binary64.exponentBias : Int) = 1023 := rfl
    have : (Format.binary64.mantissaBitsWithoutImplicit : Int) = 52 := rfl
    omega
  have hpack : UnpackedFloat.pack Format.binary64 (.finite s m e hm) =
      packComponents Format.binary64 s (BitVec.ofNat 11 b) (BitVec.ofNat 52 m) := by
    simp only [UnpackedFloat.pack, hbias, hlog]
    rw [if_neg (by show ¬ 2 ^ 11 ≤ b + 1; omega),
      if_pos (show 52 + 1 = Format.binary64.mantissaBits from rfl)]
  have hexp : (BitVec.ofNat 11 b).toNat = b := Nat.mod_eq_of_lt (by omega)
  have hmant : (1#1 ++ BitVec.ofNat 52 m).toNat = m := by
    have hlow : 2 ^ 52 ≤ m := hlog ▸ Nat.log2_self_le hm.ne'
    have hhigh : m < 2 ^ 53 := by simpa [hlog] using Nat.lt_log2_self (n := m)
    rw [BitVec.toNat_append, ← Nat.shiftLeft_add_eq_or_of_lt (BitVec.ofNat 52 m).isLt]
    simp only [BitVec.toNat_ofNat, Nat.shiftLeft_eq]
    omega
  have hsub : ((b : Int) - (1023 + 52)) = e := by omega
  have hne1 : BitVec.ofNat 11 b ≠ -1#11 := by
    intro h
    have := congrArg BitVec.toNat h
    rw [hexp] at this
    simp at this
    omega
  have hne0 : BitVec.ofNat 11 b ≠ 0#11 := by
    intro h
    have := congrArg BitVec.toNat h
    rw [hexp] at this
    simp at this
    omega
  show UnpackedFloat.unpack Format.binary64 (UnpackedFloat.pack Format.binary64 _) = _
  rw [hpack, UnpackedFloat.unpack]
  simp only [unpackMantissa_packComponents, unpackExponent_packComponents,
    unpackSign_packComponents, Sign.ofBitVec_toBitVec]
  rw [if_neg hne1, if_neg hne0]
  simp only [finite.injEq, true_and]
  exact ⟨hmant, by rw [hexp]; exact hsub⟩

/-! ### Reading a whole number -/

/-- Zeros that are shifted out leave no trace. -/
theorem shiftRight_exact (k m : Nat) :
    ExtendedMantissa.mk (m * 2 ^ k) false false >>> k = ExtendedMantissa.mk m false false := by
  induction k generalizing m with
  | zero => simp [HShiftRight.hShiftRight, Nat.repeat]
  | succ k ih =>
    change ExtendedMantissa.shiftRightOne (ExtendedMantissa.mk (m * 2 ^ (k + 1)) false false >>> k)
      = _
    rw [pow_succ', ← mul_assoc, ih]
    simp [ExtendedMantissa.shiftRightOne]

theorem log2_mul_two_pow (hm : 0 < m) (k : Nat) : (m * 2 ^ k).log2 = m.log2 + k := by
  rw [Nat.log2_eq_iff (Nat.mul_pos hm (Nat.two_pow_pos k)).ne']
  have hlow : 2 ^ m.log2 ≤ m := Nat.log2_self_le hm.ne'
  have hhigh : m < 2 ^ (m.log2 + 1) := Nat.lt_log2_self
  constructor
  · rw [pow_add]
    exact Nat.mul_le_mul_right _ hlow
  · rw [add_right_comm, pow_add]
    exact Nat.mul_lt_mul_of_pos_right hhigh (Nat.two_pow_pos k)

theorem shiftToTargetExponent_exact {k : Nat} {e : Int} (hm : 0 < m) (hlog : m.log2 = 52)
    (hmin : -1074 ≤ e + k) :
    shiftToTargetExponent Format.binary64 (m * 2 ^ k) e .exact =
      (ExtendedMantissa.mk m false false, e + k) := by
  have htarget : Format.binary64.targetExponent (totalExponent (m * 2 ^ k) e) = e + k := by
    have hbits : (Format.binary64.mantissaBits : Int) = 53 := rfl
    have hmin' : Format.binary64.minExponent = -1074 := rfl
    rw [Format.targetExponent, totalExponent, log2_mul_two_pow hm, hlog, hbits, hmin']
    push_cast
    omega
  have hamount : (e + k - e).toNat = k := by omega
  rw [shiftToTargetExponent, htarget, shiftToExponent]
  simp only [hamount, ExtendedMantissa.ofMantissaAndAccuracy, shiftRight_exact]

/-- A mantissa with more than 53 bits, those behind them zero, is rounded to itself. -/
theorem roundWithAccuracy_exact (s : Sign) {k : Nat} {e : Int} (hm : 0 < m) (hlog : m.log2 = 52)
    (hmin : -1074 ≤ e + k) :
    roundWithAccuracy Format.binary64 s (m * 2 ^ k) e .exact = .finite s m (e + k) hm := by
  have hround : (ExtendedMantissa.mk m false false).roundedMantissa = m := rfl
  have hagain := shiftToTargetExponent_exact (k := 0) hm hlog (e := e + k) (by omega)
  rw [pow_zero, mul_one] at hagain
  simp only [roundWithAccuracy, shiftToTargetExponent_exact hm hlog hmin, hround, hagain]
  rw [dif_neg hm.ne']
  simp

/-- The float of a whole number. -/
theorem unpack_ofScientific (hm : 0 < m) (hsmall : m < 2 ^ 53) :
    (Float.Model.ofScientific m 0).unpack =
      .finite .positive (leading m) (m.log2 - 52) (leading_pos hm) := by
  have hlog := log2_le hm hsmall
  have hbits : Format.binary64.mantissaBits = 53 := rfl
  have hshift : m <<< Format.binary64.mantissaBits * 10 ^ Int.toNat 0 =
      leading m * 2 ^ (m.log2 + 1) := by
    have hplaces : 52 - m.log2 + (m.log2 + 1) = 53 := by omega
    rw [leading, mul_assoc, ← pow_add, hplaces, Nat.shiftLeft_eq, hbits, Int.toNat_zero, pow_zero,
      mul_one]
  have hexp : -((Format.binary64.mantissaBits : Nat) : Int) + 0 + ((m.log2 + 1 : Nat) : Int) =
      m.log2 - 52 := by
    rw [hbits]
    omega
  have hmul : UnpackedFloat.ofScientific Format.binary64 m 0 =
      .finite .positive (leading m) (m.log2 - 52) (leading_pos hm) := by
    rw [UnpackedFloat.ofScientific, dif_neg hm.ne', if_neg (by decide), if_neg (by simp),
      if_pos le_rfl]
    simp only [UnpackedFloat.mul, hshift]
    rw [roundWithAccuracy_exact _ (leading_pos hm) (log2_leading hm hsmall) (by omega)]
    simp only [hexp]
    rfl
  rw [Float.Model.ofScientific, hmul]
  exact unpack_pack_of_log2 _ _ (log2_leading hm hsmall) (by omega) (by omega)

/-! ### Signs -/

/-- The float read from a sign and digits. -/
def whole (minus : Bool) (m : Nat) : Float.Model :=
  if minus then (Float.Model.ofScientific m 0).neg else Float.Model.ofScientific m 0

/-- The number read from them. -/
def value (minus : Bool) (m : Nat) : Int := if minus then -(m : Int) else m

theorem value_zero (minus : Bool) : value minus 0 = 0 := by cases minus <;> rfl

/-- The sign of a float. -/
def signOf (minus : Bool) : Sign := if minus then .negative else .positive

theorem unpack_whole_zero (minus : Bool) : (whole minus 0).unpack = .zero (signOf minus) := by
  have hzero : (Float.Model.ofScientific 0 0).unpack = .zero .positive :=
    unpack_packedZero
  cases minus with
  | false => exact hzero
  | true =>
    rw [whole, if_pos rfl, Float.Model.neg, hzero]
    exact unpack_packedZero

theorem unpack_whole (minus : Bool) (hm : 0 < m) (hsmall : m < 2 ^ 53) :
    (whole minus m).unpack =
      .finite (signOf minus) (leading m) (m.log2 - 52) (leading_pos hm) := by
  have hlog := log2_le hm hsmall
  cases minus with
  | false => exact unpack_ofScientific hm hsmall
  | true =>
    rw [whole, if_pos rfl, Float.Model.neg, unpack_ofScientific hm hsmall]
    exact unpack_pack_of_log2 _ _ (log2_leading hm hsmall) (by omega) (by omega)

/-! ### Comparing -/

/-- Exponents and then mantissas are ordered as the numbers are. -/
theorem compare_leading (hm : 0 < m) (hn : 0 < n) :
    (compare ((m.log2 : Int) - 52) (n.log2 - 52)).then (compare (leading m) (leading n)) =
      compare m n := by
  have hbelow : ∀ {a b : Nat}, 0 < b → a.log2 < b.log2 → a < b := by
    intro a b hb hlog
    calc a < 2 ^ (a.log2 + 1) := Nat.lt_log2_self
      _ ≤ 2 ^ b.log2 := Nat.pow_le_pow_right (by decide) hlog
      _ ≤ b := Nat.log2_self_le hb.ne'
  rcases lt_trichotomy m.log2 n.log2 with hlt | heq | hgt
  · rw [compare_lt_iff_lt.mpr (show (m.log2 : Int) - 52 < n.log2 - 52 by omega),
      compare_lt_iff_lt.mpr (hbelow hn hlt)]
    rfl
  · -- with the same exponent the numbers are multiplied by the same power
    rw [heq, compare_eq_iff_eq.mpr rfl, leading, leading, heq]
    have hpos : 0 < 2 ^ (52 - n.log2) := Nat.two_pow_pos _
    rcases lt_trichotomy m n with h | rfl | h
    · rw [compare_lt_iff_lt.mpr h, compare_lt_iff_lt.mpr (Nat.mul_lt_mul_of_pos_right h hpos)]
      rfl
    · rw [compare_eq_iff_eq.mpr rfl, compare_eq_iff_eq.mpr rfl]
      rfl
    · rw [compare_gt_iff_gt.mpr h, compare_gt_iff_gt.mpr (Nat.mul_lt_mul_of_pos_right h hpos)]
      rfl
  · rw [compare_gt_iff_gt.mpr (show (n.log2 : Int) - 52 < m.log2 - 52 by omega),
      compare_gt_iff_gt.mpr (hbelow hm hgt)]
    rfl

theorem compare_natCast (m n : Nat) : compare (m : Int) n = compare m n := by
  rcases lt_trichotomy m n with h | rfl | h
  · rw [compare_lt_iff_lt.mpr h, compare_lt_iff_lt.mpr (by omega)]
  · rw [compare_eq_iff_eq.mpr rfl, compare_eq_iff_eq.mpr rfl]
  · rw [compare_gt_iff_gt.mpr h, compare_gt_iff_gt.mpr (by omega)]

theorem compare_neg_natCast (m n : Nat) : compare (-(m : Int)) (-n) = (compare m n).swap := by
  rcases lt_trichotomy m n with h | rfl | h
  · rw [compare_lt_iff_lt.mpr h, compare_gt_iff_gt.mpr (by omega)]
    rfl
  · rw [compare_eq_iff_eq.mpr rfl, compare_eq_iff_eq.mpr rfl]
    rfl
  · rw [compare_gt_iff_gt.mpr h, compare_lt_iff_lt.mpr (by omega)]
    rfl

/-- **Floats of small whole numbers compare as the numbers.** -/
theorem compare_whole (minus minus' : Bool) (hm : m < 2 ^ 53) (hn : n < 2 ^ 53) :
    (whole minus m).unpack.compare (whole minus' n).unpack =
      some (compare (value minus m) (value minus' n)) := by
  rcases m.eq_zero_or_pos with rfl | hm0 <;> rcases n.eq_zero_or_pos with rfl | hn0
  · rw [unpack_whole_zero, unpack_whole_zero]
    cases minus <;> cases minus' <;> rfl
  · rw [unpack_whole_zero, unpack_whole _ hn0 hn, value_zero]
    cases minus' with
    | false => exact congrArg some (compare_lt_iff_lt.mpr (show (0 : Int) < n by omega)).symm
    | true => exact congrArg some (compare_gt_iff_gt.mpr (show (0 : Int) > -n by omega)).symm
  · rw [unpack_whole_zero, unpack_whole _ hm0 hm, value_zero]
    cases minus with
    | false => exact congrArg some (compare_gt_iff_gt.mpr (show (m : Int) > 0 by omega)).symm
    | true => exact congrArg some (compare_lt_iff_lt.mpr (show -(m : Int) < 0 by omega)).symm
  · rw [unpack_whole _ hm0 hm, unpack_whole _ hn0 hn]
    cases minus with
    | false =>
      cases minus' with
      | false =>
        refine congrArg some ?_
        rw [compare_leading hm0 hn0]
        exact (compare_natCast m n).symm
      | true => exact congrArg some (compare_gt_iff_gt.mpr (show (m : Int) > -n by omega)).symm
    | true =>
      cases minus' with
      | false => exact congrArg some (compare_lt_iff_lt.mpr (show -(m : Int) < n by omega)).symm
      | true =>
        refine congrArg some ?_
        rw [compare_leading hm0 hn0]
        exact (compare_neg_natCast m n).symm

end WholeFloats
