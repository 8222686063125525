import Mathlib.Data.Int.Basic
import Mathlib.Tactic.Linarith
import Lux.IndexRange
import Lux.Machine64

/-!
# Ranges of positions in machine integers

A range is given by two signed 64-bit integers and read between two unsigned offsets. Each lemma
gives what one way of computing an offset amounts to, for sequences whose length is a signed 64-bit
integer.
-/

namespace MachineRange

open IndexRange Machine64

variable {len : Nat} (hlen : len < 2 ^ 63) (i : Int64)
include hlen

theorem wrap_len_add (h : i.toInt < 0) : wrap (len + i.toInt) = len + i.toInt := by
  have hmin := minValue_le i
  exact wrap_of_mem (by omega) (by unfold maxValue; omega)

/-- A bound counted from the end, moved to the beginning when it lies before it. -/
theorem asUsize_from_end (h : i.toInt < 0) :
    asUsize (max (wrap (len + i.toInt)) 0) = (resolve len i.toInt).toNat := by
  rw [wrap_len_add hlen i h, asUsize_of_nonneg (by omega) (by omega), resolve]
  omega

omit hlen in
/-- A bound counted from the beginning. -/
theorem asUsize_from_start (h : ¬ i.toInt < 0) : asUsize i.toInt = (resolve len i.toInt).toNat := by
  have hmax := le_maxValue i
  unfold maxValue at hmax
  rw [asUsize_of_nonneg (by omega) (by omega), resolve, if_neg h]

/-- A bound that is moved to the beginning before the conversion. -/
theorem asUsize_resolve :
    asUsize (if i.toInt < 0 then max (wrap (len + i.toInt)) 0 else i.toInt) =
      (resolve len i.toInt).toNat := by
  split
  · exact asUsize_from_end hlen i (by assumption)
  · exact asUsize_from_start i (by assumption)

/-- A bound before any conversion. -/
theorem resolve_of_wrap :
    (if i.toInt < 0 then wrap (len + i.toInt) else i.toInt) = resolve len i.toInt := by
  unfold resolve
  split
  · exact wrap_len_add hlen i (by assumption)
  · rfl

/-- An offset, when it is cut to the sequence or to its last position: one before the beginning is
moved to it. -/
theorem offset_cut {cut : Nat} (hcut : len ≤ cut + 1) :
    (if i.toInt < 0 then asUsize (max (wrap (len + i.toInt)) 0) else min (asUsize i.toInt) cut) =
      min (resolve len i.toInt).toNat cut := by
  split
  · rename_i hneg
    rw [asUsize_from_end hlen i hneg, resolve]
    omega
  · rename_i hneg
    rw [asUsize_from_start i hneg]

/-- The first offset, cut to the sequence before the conversion. -/
theorem cut_first :
    (if i.toInt < 0 then asUsize (max (wrap (len + i.toInt)) 0) else asUsize (min i.toInt len)) =
      min (resolve len i.toInt).toNat len := by
  have hmax := le_maxValue i
  unfold maxValue at hmax
  rw [← offset_cut hlen i (Nat.le_succ len)]
  split
  · rfl
  · rw [asUsize_of_nonneg (by omega) (by omega), asUsize_of_nonneg (by omega) (by omega)]
    omega

/-- The offset behind the last position. The successor of the largest integer is the least one,
whose offset lies behind every sequence, as the exact one does. -/
theorem cut_behind :
    min (if i.toInt < 0 then asUsize (max (wrap (wrap (len + i.toInt) + 1)) 0)
      else asUsize (min (wrap (i.toInt + 1)) len)) len =
        min (resolve len i.toInt + 1).toNat len := by
  have hmin := minValue_le i
  have hmax := le_maxValue i
  unfold minValue at hmin
  unfold maxValue at hmax
  split
  · rename_i hneg
    rw [wrap_len_add hlen i hneg, wrap_of_mem (by unfold minValue; omega)
      (by unfold maxValue; omega),
      asUsize_of_nonneg (by omega) (by omega), resolve]
    omega
  · rw [resolve]
    by_cases hlast : i.toInt = maxValue
    · have hbehind : asUsize (min (wrap (i.toInt + 1)) len) = 2 ^ 63 := by
        rw [hlast, wrap_maxValue_succ, min_eq_left (by unfold minValue; omega)]
        decide
      rw [hbehind, hlast]
      unfold maxValue
      omega
    · unfold maxValue at hlast
      rw [wrap_of_mem (by unfold minValue; omega) (by unfold maxValue; omega),
        asUsize_of_nonneg (by omega) (by omega)]
      omega

end MachineRange
