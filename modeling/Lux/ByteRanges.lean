import Lux.StringTypes
import Lux.MachineRange

/-!
# Reading ranges of bytes and bits

`GETRANGE`, `BITCOUNT` and `BITPOS` each turn two signed bounds into offsets of their own. The
bounds are 64-bit integers and the offsets unsigned ones, so each conversion is written out as
the machine does it, and a piece that is none stops the server (`none`).

What they should read is the same for all of them: the positions between the bounds, negative ones
counted from the end (`IndexRange.Selects`). They differ from it where a bound plus one leaves the
64-bit range, and where an end before the beginning of the string is moved to its first position.
-/

namespace Lux.Strings

open ByteCodec BitString IndexRange Machine64 MachineRange List

/-- A string in memory. Its bits can be counted in 64 bits, as no address space holds longer
ones. -/
structure StoredString where
  bytes : Bytes
  fits : bytes.length < 2 ^ 60

/-! ## The commands -/

/-- `getrange`. -/
def getrange (s : Bytes) (start stop : Int64) : Option Bytes :=
  let len : Int := s.length
  let first := if start.toInt < 0 then asUsize (max (wrap (len + start.toInt)) 0)
    else asUsize (min start.toInt len)
  let last := if stop.toInt < 0 then (asUsize (max (wrap (len + stop.toInt)) (-1)) + 1) % 2 ^ 64
    else asUsize (min (wrap (stop.toInt + 1)) len)
  if last ≤ first then some [] else slice s first last

/-- The part of `cmd_getrange` for values that were encrypted. -/
def getrangeDecrypted (value : Bytes) (start stop : Int64) : Option Bytes :=
  if value = [] then some []
  else
    let len : Int := value.length
    let first := asUsize (if start.toInt < 0 then max (wrap (len + start.toInt)) 0
      else start.toInt)
    let raw := if stop.toInt < 0 then wrap (len + stop.toInt) else stop.toInt
    if raw < 0 then some []
    else
      let last := asUsize (min raw (wrap (len - 1)))
      if last < first ∨ value.length ≤ first then some [] else slice value first (last + 1)

/-- `cmd_getrange` behind its arguments. -/
def cmdGetrange (env : Env) (slot : Option Cell) (now : Instant) (start stop : Int64) :
    Option Reply :=
  match live slot now with
  | none => some (.bulk (some []))
  | some cell =>
    match cell.value.stringBytes with
    | none => some (.error wrongType)
    | some bytes =>
      if env.isEncryptedValue bytes then
        match env.decryptKvStringValue bytes with
        | .error message => some (.error message)
        | .ok value => (getrangeDecrypted value start stop).map fun part => .bulk (some part)
      else (getrange bytes start stop).map fun part => .bulk (some part)

/-- `bitcount` over bits. -/
def bitcountBits (s : Bytes) (start stop : Int64) : Nat :=
  let bitLen := wrap (s.length * 8)
  let first := if start.toInt < 0 then asUsize (max (wrap (bitLen + start.toInt)) 0)
    else min (asUsize start.toInt) (asUsize bitLen)
  -- An empty string has no last bit: the subtraction wraps.
  let last := if stop.toInt < 0 then asUsize (max (wrap (bitLen + stop.toInt)) 0)
    else min (asUsize stop.toInt) (asUsize (bitLen - 1))
  if last < first then 0 else (List.range' first (last + 1 - first)).countP (bitAt s)

/-- `bitcount` over bytes. -/
def bitcountBytes (s : Bytes) (start stop : Int64) : Option Nat :=
  let len : Int := s.length
  let lower := if start.toInt < 0 then wrap (len + start.toInt) else start.toInt
  let upper := if stop.toInt < 0 then wrap (len + stop.toInt) else stop.toInt
  if upper < lower then some 0
  else
    let first := asUsize (max lower 0)
    let last := asUsize (min (max upper 0) (if 0 < len then len - 1 else 0))
    if last < first ∨ s = [] then some 0
    else (slice s first (last + 1)).map fun part => (part.map countOnes).sum

/-- The last offset of `bitpos`, over bits or over bytes. -/
def lastOffset (len : Int) : Option Int64 → Nat
  | some stop =>
    if stop.toInt < 0 then asUsize (max (wrap (len + stop.toInt)) 0)
    else min (asUsize stop.toInt) (asUsize len - 1)
  | none => asUsize len - 1

/-- The loop of `bitpos` over bits. -/
def scanBits (s : Bytes) (bit : Bool) (first last : Nat) : Int :=
  if last < first then -1
  else
    ((List.range' first (last + 1 - first)).find? fun i =>
      decide (i / 8 < s.length) && (bitAt s i == bit)).elim (-1) fun i => (i : Int)

/-- The loop of `bitpos` over bytes. -/
def scanBytes (s : Bytes) (bit endGiven : Bool) (first last : Nat) : Int :=
  if last < first then -1
  else
    let found : Option Nat := ((s.zipIdx.take (last + 1)).drop first).findSome? fun p =>
      ((List.range 8).find? fun b => byteBit p.1 (7 - b) == bit).map (p.2 * 8 + ·)
    found.elim (if bit = false ∧ endGiven = false then (((last + 1) * 8 : Nat) : Int) else -1)
      fun i => (i : Int)

/-- `bitpos` over bits, of a string that is not empty. -/
def bitposBits (s : Bytes) (bit : Bool) (start : Int64) (stop : Option Int64) : Int :=
  let bitLen := wrap (s.length * 8)
  let first := if start.toInt < 0 then asUsize (max (wrap (bitLen + start.toInt)) 0)
    else asUsize start.toInt
  scanBits s bit first (lastOffset bitLen stop)

/-- `bitpos` over bytes, of a string that is not empty. -/
def bitposBytes (s : Bytes) (bit : Bool) (start : Int64) (stop : Option Int64) : Int :=
  let len : Int := s.length
  let first := if start.toInt < 0 then asUsize (max (wrap (len + start.toInt)) 0)
    else min (asUsize start.toInt) s.length
  scanBytes s bit stop.isSome first (lastOffset len stop)

/-- `bitpos`. -/
def bitpos (s : Bytes) (bit : Bool) (start : Int64) (stop : Option Int64) (useBit : Bool) : Int :=
  if s = [] then (if bit then -1 else 0)
  else if useBit then bitposBits s bit start stop
  else bitposBytes s bit start stop

/-- `bitcount`. -/
def bitcount (s : Bytes) (start stop : Int64) (useBit : Bool) : Option Nat :=
  if useBit then some (bitcountBits s start stop) else bitcountBytes s start stop

/-! ## What they should read -/

/-- The positions of bits in a range of bits, or of bytes. -/
def InRange (s : Bytes) (start stop : Int) (useBit : Bool) (i : Nat) : Prop :=
  if useBit then Selects (8 * s.length) start stop i else Selects s.length start stop (i / 8)

instance (s : Bytes) (start stop : Int) (useBit : Bool) (i : Nat) :
    Decidable (InRange s start stop useBit i) :=
  inferInstanceAs (Decidable (if useBit then _ else _))

/-- The one bits in a range. -/
def oneBits (s : Bytes) (start stop : Int) (useBit : Bool) : Nat :=
  (List.range (8 * s.length)).countP fun i => bitAt s i && InRange s start stop useBit i

/-- The first bit of a kind in a range. -/
def firstBit (s : Bytes) (bit : Bool) (start stop : Int) (useBit : Bool) : Option Nat :=
  (List.range (8 * s.length)).find? fun i => (bitAt s i == bit) && InRange s start stop useBit i

/-- The answer when there is none: a zero bit is looked for past the end of the string when the
range was left open there. -/
def notFound (s : Bytes) (bit : Bool) (start : Int) (stop : Option Int64) (useBit : Bool) : Int :=
  if s = [] then (if bit then -1 else 0)
  else if bit = false ∧ stop = none ∧ useBit = false ∧ start < s.length then
    ((8 * s.length : Nat) : Int)
  else -1

/-- The end of a range, which is the last position when it is left open. -/
def endOr (stop : Option Int64) : Int := stop.elim (-1) Int64.toInt

/-! ## Bytes -/

section Bytes

variable (s : StoredString) (start stop : Int64)

theorem length_lt : s.bytes.length < 2 ^ 63 := lt_trans s.fits (by norm_num)

/-- The offset behind the last byte, where the successor of the bound is a 64-bit integer. -/
theorem getrange_last (hstop : stop.toInt ≠ maxValue) :
    (if stop.toInt < 0 then
        (asUsize (max (wrap (s.bytes.length + stop.toInt)) (-1)) + 1) % 2 ^ 64
      else asUsize (min (wrap (stop.toInt + 1)) s.bytes.length)) =
        min (resolve s.bytes.length stop.toInt + 1).toNat s.bytes.length := by
  have hlen := length_lt s
  have hmax := le_maxValue stop
  unfold maxValue at hstop hmax
  split
  · rename_i hneg
    rw [wrap_len_add hlen stop hneg, resolve]
    by_cases hbefore : (s.bytes.length : Int) + stop.toInt < 0
    · rw [asUsize_of_neg (by omega) (by omega)]
      omega
    · rw [asUsize_of_nonneg (by omega) (by omega)]
      omega
  · rw [wrap_of_mem (by unfold minValue; omega) (by unfold maxValue; omega),
      asUsize_of_nonneg (by omega) (by omega), resolve]
    omega

/-- **`getrange` is exact unless the end is the largest integer**, where it stops the server. -/
theorem getrange_iff :
    getrange s.bytes start stop = some (between s.bytes start.toInt stop.toInt) ↔
      stop.toInt ≠ maxValue := by
  have hlen := length_lt s
  have hfirst := cut_first hlen start
  constructor
  · intro heq hstop
    -- The successor is the least integer, whose offset lies behind every string.
    have hlast : asUsize (min (wrap (stop.toInt + 1)) s.bytes.length) = 2 ^ 63 := by
      rw [hstop, wrap_maxValue_succ, min_eq_left (by unfold minValue; omega)]
      decide
    have hneg : ¬ stop.toInt < 0 := by rw [hstop]; decide
    simp only [getrange, if_neg hneg, hlast] at heq
    rw [if_neg (by omega), slice, if_neg (by omega)] at heq
    cases heq
  · intro hstop
    simp only [getrange, getrange_last s stop hstop, hfirst]
    split
    · rename_i hle
      rw [between_eq_nil (Nat.min_eq_left (Nat.min_le_right _ _))
        (Nat.min_eq_left (Nat.min_le_right _ _)) hle]
    · rw [slice, if_pos ⟨by omega, by omega⟩,
        piece_eq_between (Nat.min_eq_left (Nat.min_le_right _ _))
          (Nat.min_eq_left (Nat.min_le_right _ _))]

/-- **The part for encrypted values is exact.** -/
theorem getrangeDecrypted_eq :
    getrangeDecrypted s.bytes start stop = some (between s.bytes start.toInt stop.toInt) := by
  have hlen := length_lt s
  by_cases hempty : s.bytes = []
  · rw [getrangeDecrypted, hempty]
    rfl
  have hpos : 0 < s.bytes.length := length_pos_iff.mpr hempty
  have hone : wrap ((s.bytes.length : Int) - 1) = s.bytes.length - 1 :=
    wrap_of_mem (by unfold minValue; omega) (by unfold maxValue; omega)
  simp only [getrangeDecrypted, if_neg hempty, asUsize_resolve hlen, resolve_of_wrap hlen, hone]
  split
  · rw [between_eq_nil rfl rfl (by omega)]
  have hlast : asUsize (min (resolve s.bytes.length stop.toInt) (s.bytes.length - 1)) =
      (min (resolve s.bytes.length stop.toInt) (s.bytes.length - 1)).toNat :=
    asUsize_of_nonneg (by omega) (by omega)
  rw [hlast]
  split
  · have hcut : min (min (resolve s.bytes.length stop.toInt + 1).toNat s.bytes.length)
        s.bytes.length = min (resolve s.bytes.length stop.toInt + 1).toNat s.bytes.length := by
      omega
    rw [between_eq_nil rfl hcut (by omega)]
  · have hbehind : min ((min (resolve s.bytes.length stop.toInt) (s.bytes.length - 1)).toNat + 1)
        s.bytes.length = min (resolve s.bytes.length stop.toInt + 1).toNat s.bytes.length := by
      omega
    rw [slice, if_pos ⟨by omega, by omega⟩, piece_eq_between rfl hbehind]

end Bytes

/-! ## Bits -/

section Bits

variable {s : Bytes} {start stop : Int} {useBit : Bool} {first last : Nat}

theorem lt_of_bitAt {i : Nat} (h : bitAt s i = true) : i < 8 * s.length := by
  by_contra hout
  rw [bitAt_of_length_le (by omega)] at h
  cases h

/-- The one bits of a piece are those of the string at its positions. -/
theorem sum_countOnes_slice (h : last ≤ s.length) :
    (((s.take last).drop first).map countOnes).sum =
      (List.range' (8 * first) (8 * last - 8 * first)).countP (bitAt s) := by
  have hlength : 8 * ((s.take last).drop first).length = 8 * last - 8 * first := by
    rw [length_drop, length_take]
    omega
  rw [sum_countOnes, hlength, range'_eq_map_range, countP_map]
  apply countP_congr
  intro i hi
  rw [bitAt_slice s (by have := mem_range.mp hi; omega)]
  exact Iff.rfl

/-- A count over the positions of the range is the count that is asked for. -/
theorem countP_eq_oneBits
    (h : ∀ i < 8 * s.length, (first ≤ i ∧ i < last) ↔ InRange s start stop useBit i) :
    (List.range' first (last - first)).countP (bitAt s) = oneBits s start stop useBit := by
  rw [countP_range' fun i hi _ => lt_of_bitAt hi]
  apply countP_congr
  intro i hi
  rw [Bool.and_eq_true, Bool.and_eq_true, decide_eq_true_eq, decide_eq_true_eq,
    h i (mem_range.mp hi)]

theorem oneBits_eq_zero (h : ∀ i < 8 * s.length, ¬ InRange s start stop useBit i) :
    oneBits s start stop useBit = 0 := by
  rw [oneBits, countP_eq_zero]
  intro i hi
  simp [h i (mem_range.mp hi)]

/-- None of the first positions is hit. -/
theorem forall_first {hit : Nat → Bool} :
    (∀ i ∈ List.range' 0 (last - 0), ¬ hit i = true) ↔ ¬ ∃ i < last, hit i = true := by
  simp [mem_range'_1]

/-- A search of the positions of the range is the search that is asked for. -/
theorem find_eq_firstBit {bit : Bool} (hlast : last ≤ 8 * s.length)
    (h : ∀ i < 8 * s.length, (first ≤ i ∧ i < last) ↔ InRange s start stop useBit i) :
    (List.range' first (last - first)).find? (fun i => bitAt s i == bit) =
      firstBit s bit start stop useBit := by
  rw [find_range' hlast]
  apply find?_congr
  intro i hi
  simp [h i (mem_range.mp hi)]

theorem firstBit_eq_none {bit : Bool} (h : ∀ i < 8 * s.length, ¬ InRange s start stop useBit i) :
    firstBit s bit start stop useBit = none := by
  rw [firstBit, find?_range_eq_none]
  intro i hi
  simp [h i hi]

/-- The search of a piece, byte by byte, is one of the positions of its bits. -/
theorem findSome_slice (bit : Bool) (h : last ≤ s.length) :
    (((s.zipIdx.take last).drop first).findSome? fun p =>
      ((List.range 8).find? fun b => byteBit p.1 (7 - b) == bit).map (p.2 * 8 + ·)) =
        (List.range' (8 * first) (8 * last - 8 * first)).find? fun i => bitAt s i == bit := by
  have hlength : 8 * ((s.take last).drop first).length = 8 * last - 8 * first := by
    rw [length_drop, length_take]
    omega
  rw [zipIdx_piece, Nat.zero_add, findSome_bits, hlength, range'_eq_map_range, find?_map]
  congr 1
  apply find?_congr
  intro i hi
  rw [bitAt_slice s (by have := mem_range.mp hi; omega)]
  rfl

end Bits

/-! ### Counting -/

section Count

variable (s : StoredString) (start stop : Int64)

theorem wrap_bits : wrap ((s.bytes.length : Int) * 8) = (8 * s.bytes.length : Nat) := by
  have h := s.fits
  rw [wrap_of_mem (by unfold minValue; omega) (by unfold maxValue; omega)]
  omega

theorem bits_lt : 8 * s.bytes.length < 2 ^ 63 := by
  have h := s.fits
  omega

/-- **Counting bits is exact** unless the range ends before the string, begins at or before its
first bit, and that bit is one. -/
theorem bitcountBits_iff :
    bitcountBits s.bytes start stop = oneBits s.bytes start.toInt stop.toInt true ↔
      ¬ (resolve (8 * s.bytes.length) start.toInt ≤ 0 ∧
        resolve (8 * s.bytes.length) stop.toInt < 0 ∧ bitAt s.bytes 0 = true) := by
  have hlen := bits_lt s
  by_cases hempty : s.bytes.length = 0
  · have hnone : ∀ i, ¬ bitAt s.bytes i = true := fun i hbit => by
      have := lt_of_bitAt hbit
      omega
    refine iff_of_true ?_ fun h => hnone 0 h.2.2
    have hzero : ∀ positions : List Nat, positions.countP (bitAt s.bytes) = 0 := fun positions =>
      countP_eq_zero.mpr fun i _ => hnone i
    rw [oneBits_eq_zero (by omega)]
    simp only [bitcountBits, hzero, ite_self]
  have hbefore : asUsize ((8 * s.bytes.length : Nat) - 1) = 8 * s.bytes.length - 1 := by
    rw [asUsize_of_nonneg (by omega) (by omega)]
    omega
  have hall := asUsize_natCast (lt_trans hlen (by norm_num))
  have hcount : bitcountBits s.bytes start stop =
      (range' (min (resolve (8 * s.bytes.length) start.toInt).toNat (8 * s.bytes.length))
        (min (resolve (8 * s.bytes.length) stop.toInt).toNat (8 * s.bytes.length - 1) + 1 -
          min (resolve (8 * s.bytes.length) start.toInt).toNat (8 * s.bytes.length))).countP
            (bitAt s.bytes) := by
    simp only [bitcountBits, wrap_bits s, hbefore, hall,
      offset_cut hlen start (Nat.le_succ _), offset_cut hlen stop le_tsub_add]
    split
    · rw [Nat.sub_eq_zero_of_le (by omega)]
      rfl
    · rfl
  rw [hcount]
  by_cases hend : 0 ≤ resolve (8 * s.bytes.length) stop.toInt
  · refine iff_of_true (countP_eq_oneBits ?_) fun h => by omega
    simp only [InRange, if_true, Selects]
    omega
  -- The end is moved to the first bit.
  have hnone : oneBits s.bytes start.toInt stop.toInt true = 0 := by
    apply oneBits_eq_zero
    simp only [InRange, if_true, Selects]
    omega
  rw [hnone]
  by_cases hbegin : resolve (8 * s.bytes.length) start.toInt ≤ 0
  · have hfirst : min (resolve (8 * s.bytes.length) start.toInt).toNat (8 * s.bytes.length) =
        0 := by
      omega
    rw [hfirst, countP_eq_zero, forall_first, not_iff_not]
    constructor
    · intro hex
      obtain ⟨i, hi, hbit⟩ := hex
      have hzero : i = 0 := by omega
      exact ⟨hbegin, by omega, hzero ▸ hbit⟩
    · intro h
      exact ⟨0, by omega, h.2.2⟩
  · refine iff_of_true ?_ fun h => hbegin h.1
    rw [Nat.sub_eq_zero_of_le (by omega)]
    rfl

/-- **Counting bytes is exact** unless the whole range lies before the string, is not empty, and
the first byte has a one bit. -/
theorem bitcountBytes_iff :
    bitcountBytes s.bytes start stop =
        some (oneBits s.bytes start.toInt stop.toInt false) ↔
      ¬ (resolve s.bytes.length start.toInt ≤ resolve s.bytes.length stop.toInt ∧
        resolve s.bytes.length stop.toInt < 0 ∧ ∃ i < 8, bitAt s.bytes i = true) := by
  have hlen := length_lt s
  have hsmall : resolve s.bytes.length start.toInt < 2 ^ 64 := by
    have := le_maxValue start
    unfold maxValue at this
    unfold resolve
    split <;> omega
  simp only [bitcountBytes, resolve_of_wrap hlen]
  by_cases hwrong : resolve s.bytes.length stop.toInt < resolve s.bytes.length start.toInt
  · refine iff_of_true ?_ fun h => by omega
    rw [if_pos hwrong, oneBits_eq_zero]
    simp only [InRange, Bool.false_eq_true, if_false, Selects]
    omega
  rw [if_neg hwrong]
  by_cases hempty : s.bytes = []
  · have hzero : s.bytes.length = 0 := by rw [hempty]; rfl
    refine iff_of_true ?_ fun h => ?_
    · rw [if_pos (.inr hempty), oneBits_eq_zero (by omega)]
    · obtain ⟨i, _, hbit⟩ := h.2.2
      have := lt_of_bitAt hbit
      omega
  have hpos : 0 < s.bytes.length := length_pos_iff.mpr hempty
  rw [if_pos (by omega : (0 : Int) < s.bytes.length), asUsize_of_nonneg (by omega) (by omega),
    asUsize_of_nonneg (by omega) (by omega)]
  by_cases hpiece : (min (max (resolve s.bytes.length stop.toInt) 0) (s.bytes.length - 1)).toNat <
      (max (resolve s.bytes.length start.toInt) 0).toNat
  · refine iff_of_true ?_ fun h => by omega
    rw [if_pos (.inl hpiece), oneBits_eq_zero]
    simp only [InRange, Bool.false_eq_true, if_false, Selects]
    omega
  rw [if_neg fun h => h.elim hpiece hempty, slice, if_pos ⟨by omega, by omega⟩, Option.map_some,
    sum_countOnes_slice (by omega), Option.some_inj]
  by_cases hend : 0 ≤ resolve s.bytes.length stop.toInt
  · refine iff_of_true (countP_eq_oneBits ?_) fun h => by omega
    simp only [InRange, Bool.false_eq_true, if_false, Selects]
    omega
  -- Both bounds are moved to the first byte.
  have hnone : oneBits s.bytes start.toInt stop.toInt false = 0 := by
    apply oneBits_eq_zero
    simp only [InRange, Bool.false_eq_true, if_false, Selects]
    omega
  have hfirst : 8 * (max (resolve s.bytes.length start.toInt) 0).toNat = 0 := by omega
  have hlast : 8 * ((min (max (resolve s.bytes.length stop.toInt) 0)
      (s.bytes.length - 1)).toNat + 1) = 8 := by
    omega
  rw [hnone, hfirst, hlast, countP_eq_zero, forall_first, not_iff_not]
  constructor
  · intro hex
    exact ⟨by omega, by omega, hex⟩
  · intro h
    exact h.2.2

end Count

/-! ### Searching -/

/-- The answer that is asked for. -/
def specPos (s : Bytes) (bit : Bool) (start : Int64) (stop : Option Int64) (useBit : Bool) : Int :=
  (firstBit s bit start.toInt (endOr stop) useBit).elim
    (notFound s bit start.toInt stop useBit) fun i => (i : Int)

section Search

variable (s : StoredString) (bit : Bool) (start : Int64) (stop : Option Int64)

/-- The last offset of a search, whether the range was left open or not. -/
theorem lastOffset_eq {len : Nat} (hlen : len < 2 ^ 63) (hpos : 0 < len) :
    lastOffset len stop = min (resolve len (endOr stop)).toNat (len - 1) := by
  have hall := asUsize_natCast (lt_trans hlen (by norm_num))
  cases stop with
  | some stop =>
    rw [lastOffset, hall]
    exact offset_cut hlen stop (by omega)
  | none =>
    rw [lastOffset]
    simp only [endOr, Option.elim_none, resolve]
    omega

/-- A position that was found is not the answer for none. -/
theorem elim_eq_neg_one_iff (found : Option Nat) :
    found.elim (-1) (fun i => (i : Int)) = -1 ↔ found = none := by
  cases found with
  | none => simp
  | some i => simp

/-- The loop over bits is a search of their positions. -/
theorem scanBits_eq {first last : Nat} (hlast : last < 8 * s.bytes.length) :
    scanBits s.bytes bit first last =
      ((List.range' first (last + 1 - first)).find? fun i => bitAt s.bytes i == bit).elim (-1)
        fun i => (i : Int) := by
  unfold scanBits
  split
  · rw [Nat.sub_eq_zero_of_le (by omega)]
    rfl
  · congr 1
    apply find?_congr
    intro i hi
    rw [mem_range'_1] at hi
    have hin : i / 8 < s.bytes.length := by omega
    simp [hin]

/-- **Searching bits is exact** unless the range ends before the string, begins at or before its
first bit, and that is the bit looked for. -/
theorem bitposBits_iff (hne : s.bytes ≠ []) :
    bitposBits s.bytes bit start stop = specPos s.bytes bit start stop true ↔
      ¬ (resolve (8 * s.bytes.length) start.toInt ≤ 0 ∧
        resolve (8 * s.bytes.length) (endOr stop) < 0 ∧ bitAt s.bytes 0 = bit) := by
  have hlen := bits_lt s
  have hpos : 0 < s.bytes.length := length_pos_iff.mpr hne
  simp only [bitposBits, wrap_bits s, ← apply_ite asUsize, asUsize_resolve hlen,
    lastOffset_eq stop hlen (by omega)]
  rw [scanBits_eq s bit (by omega), specPos, notFound, if_neg hne, if_neg (by simp)]
  by_cases hend : 0 ≤ resolve (8 * s.bytes.length) (endOr stop)
  · refine iff_of_true ?_ fun h => by omega
    rw [find_eq_firstBit (by omega)]
    simp only [InRange, if_true, Selects]
    omega
  -- The end is moved to the first bit.
  have hnone : firstBit s.bytes bit start.toInt (endOr stop) true = none := by
    apply firstBit_eq_none
    simp only [InRange, if_true, Selects]
    omega
  rw [hnone, Option.elim_none, elim_eq_neg_one_iff]
  by_cases hbegin : resolve (8 * s.bytes.length) start.toInt ≤ 0
  · have hzero : (resolve (8 * s.bytes.length) start.toInt).toNat = 0 := by omega
    rw [hzero, find?_eq_none, forall_first, not_iff_not]
    simp only [beq_iff_eq]
    constructor
    · intro hex
      obtain ⟨i, hi, hbit⟩ := hex
      have heq : i = 0 := by omega
      exact ⟨hbegin, by omega, heq ▸ hbit⟩
    · intro h
      exact ⟨0, by omega, h.2.2⟩
  · refine iff_of_true ?_ fun h => hbegin h.1
    rw [Nat.sub_eq_zero_of_le (by omega)]
    rfl

/-- **Searching bytes is exact** unless the range ends before the string, begins at or before its
first byte, and that byte has the bit looked for. -/
theorem bitposBytes_iff (hne : s.bytes ≠ []) :
    bitposBytes s.bytes bit start stop = specPos s.bytes bit start stop false ↔
      ¬ (resolve s.bytes.length start.toInt ≤ 0 ∧
        resolve s.bytes.length (endOr stop) < 0 ∧ ∃ i < 8, bitAt s.bytes i = bit) := by
  have hlen := length_lt s
  have hpos : 0 < s.bytes.length := length_pos_iff.mpr hne
  have hopen : stop = none → resolve s.bytes.length (endOr stop) = s.bytes.length - 1 := by
    intro hstop
    rw [hstop]
    simp only [endOr, Option.elim_none, resolve]
    omega
  have hbefore : resolve s.bytes.length start.toInt < s.bytes.length ↔
      start.toInt < s.bytes.length := by
    unfold resolve
    split <;> omega
  simp only [bitposBytes, offset_cut hlen start (Nat.le_succ _), lastOffset_eq stop hlen hpos,
    specPos]
  by_cases hwrong : min (resolve s.bytes.length (endOr stop)).toNat (s.bytes.length - 1) <
      min (resolve s.bytes.length start.toInt).toNat s.bytes.length
  · refine iff_of_true ?_ fun h => by omega
    have hnone : firstBit s.bytes bit start.toInt (endOr stop) false = none := by
      apply firstBit_eq_none
      simp only [InRange, Bool.false_eq_true, if_false, Selects]
      omega
    have hanswer : notFound s.bytes bit start.toInt stop false = -1 := by
      rw [notFound, if_neg hne, if_neg]
      intro h
      have := hopen h.2.1
      omega
    rw [scanBytes, if_pos hwrong, hnone, hanswer]
    rfl
  -- The loop over bytes is a search of the positions of their bits.
  rw [scanBytes, if_neg (by omega), findSome_slice bit (by omega)]
  by_cases hend : 0 ≤ resolve s.bytes.length (endOr stop)
  · refine iff_of_true ?_ fun h => by omega
    have hanswer : (if bit = false ∧ stop.isSome = false then
        (((min (resolve s.bytes.length (endOr stop)).toNat (s.bytes.length - 1) + 1) * 8 : Nat) :
          Int) else -1) = notFound s.bytes bit start.toInt stop false := by
      rw [notFound, if_neg hne]
      cases stop with
      | none =>
        have hlast := hopen rfl
        have hin : start.toInt < s.bytes.length := by omega
        have hcount : (min (resolve s.bytes.length (endOr none)).toNat (s.bytes.length - 1) + 1) *
            8 = 8 * s.bytes.length := by
          omega
        simp [hin, hcount]
      | some stop => simp
    rw [hanswer, find_eq_firstBit (by omega)]
    simp only [InRange, Bool.false_eq_true, if_false, Selects]
    omega
  -- The end is moved to the first byte.
  have hgiven : stop.isSome = true := by
    rw [Option.isSome_iff_ne_none]
    intro hstop
    have := hopen hstop
    omega
  have hnone : firstBit s.bytes bit start.toInt (endOr stop) false = none := by
    apply firstBit_eq_none
    simp only [InRange, Bool.false_eq_true, if_false, Selects]
    omega
  have hanswer : notFound s.bytes bit start.toInt stop false = -1 := by
    rw [notFound, if_neg hne, if_neg fun h => by rw [h.2.1] at hgiven; cases hgiven]
  have hfirst : 8 * min (resolve s.bytes.length start.toInt).toNat s.bytes.length = 0 := by omega
  have hlast : 8 * (min (resolve s.bytes.length (endOr stop)).toNat (s.bytes.length - 1) + 1) =
      8 := by
    omega
  rw [hnone, hanswer, hfirst, hlast, if_neg (by simp [hgiven]),
    Option.elim_none, elim_eq_neg_one_iff, find?_eq_none, forall_first, not_iff_not]
  simp only [beq_iff_eq]
  constructor
  · intro hex
    exact ⟨by omega, by omega, hex⟩
  · intro h
    exact h.2.2

end Search

/-! ## All of them -/

/-- A server whose decryption yields no more bytes than it is given. -/
structure OpeningEnv extends Env where
  length_le : ∀ bytes value, decryptKvStringValue bytes = .ok value → value.length ≤ bytes.length

/-- A string in either representation. -/
def heldIn (grows : Bool) (bytes : Bytes) : Value :=
  if grows then .growable bytes else .shared bytes

/-- The reply to `GETRANGE` that is asked for: a part of the value, which is decrypted first when
it is encrypted. -/
def specGetrange (env : Env) (bytes : Bytes) (start stop : Int64) : Reply :=
  if env.isEncryptedValue bytes then
    match env.decryptKvStringValue bytes with
    | .error message => .error message
    | .ok value => .bulk (some (between value start.toInt stop.toInt))
  else .bulk (some (between bytes start.toInt stop.toInt))

theorem cmdGetrange_iff (env : OpeningEnv) {now : Instant} (deadline : Standing now)
    (grows : Bool) (s : StoredString) (start stop : Int64) :
    cmdGetrange env.toEnv (some ⟨heldIn grows s.bytes, deadline.1⟩) now start stop =
        some (specGetrange env.toEnv s.bytes start stop) ↔
      ¬ (env.isEncryptedValue s.bytes = false ∧ stop.toInt = maxValue) := by
  have hbytes : (heldIn grows s.bytes).stringBytes = some s.bytes := by
    cases grows <;> rfl
  simp only [cmdGetrange, live_standing, hbytes, specGetrange]
  cases hsealed : env.isEncryptedValue s.bytes with
  | true =>
    refine iff_of_true ?_ fun h => by cases h.1
    cases hopen : env.decryptKvStringValue s.bytes with
    | error message => rfl
    | ok value =>
      have hfits := lt_of_le_of_lt (env.length_le _ _ hopen) s.fits
      simp [getrangeDecrypted_eq ⟨value, hfits⟩ start stop]
  | false =>
    simp only [true_and]
    rw [← ne_eq, ← getrange_iff s start stop]
    cases hpart : getrange s.bytes start stop with
    | none => simp
    | some part => simp

/-- **When the range reads are exact.**  `GETRANGE` on a plain value stops the server when its end
is the largest integer; on an encrypted value it is exact. `BITCOUNT` and `BITPOS` move an end
that lies before the string to its first position, and then see what is there. -/
theorem range_reads_exact_iff (env : OpeningEnv) {now : Instant} (deadline : Standing now)
    (grows bit : Bool) (s : StoredString) (start stop : Int64) (openStop : Option Int64) :
    (cmdGetrange env.toEnv (some ⟨heldIn grows s.bytes, deadline.1⟩) now start stop =
        some (specGetrange env.toEnv s.bytes start stop) ↔
      ¬ (env.isEncryptedValue s.bytes = false ∧ stop.toInt = maxValue)) ∧
    (bitcount s.bytes start stop true =
        some (oneBits s.bytes start.toInt stop.toInt true) ↔
      ¬ (resolve (8 * s.bytes.length) start.toInt ≤ 0 ∧
        resolve (8 * s.bytes.length) stop.toInt < 0 ∧ bitAt s.bytes 0 = true)) ∧
    (bitcount s.bytes start stop false =
        some (oneBits s.bytes start.toInt stop.toInt false) ↔
      ¬ (resolve s.bytes.length start.toInt ≤ resolve s.bytes.length stop.toInt ∧
        resolve s.bytes.length stop.toInt < 0 ∧ ∃ i < 8, bitAt s.bytes i = true)) ∧
    (bitpos s.bytes bit start openStop true = specPos s.bytes bit start openStop true ↔
      ¬ (s.bytes ≠ [] ∧ resolve (8 * s.bytes.length) start.toInt ≤ 0 ∧
        resolve (8 * s.bytes.length) (endOr openStop) < 0 ∧ bitAt s.bytes 0 = bit)) ∧
    (bitpos s.bytes bit start openStop false = specPos s.bytes bit start openStop false ↔
      ¬ (s.bytes ≠ [] ∧ resolve s.bytes.length start.toInt ≤ 0 ∧
        resolve s.bytes.length (endOr openStop) < 0 ∧ ∃ i < 8, bitAt s.bytes i = bit)) := by
  refine ⟨cmdGetrange_iff env deadline grows s start stop, ?_, bitcountBytes_iff s start stop,
    ?_, ?_⟩
  · rw [← bitcountBits_iff s start stop]
    simp [bitcount]
  · by_cases hempty : s.bytes = []
    · refine iff_of_true ?_ fun h => h.1 hempty
      rw [bitpos, specPos, hempty]
      rfl
    · rw [bitpos, if_neg hempty, if_pos rfl, bitposBits_iff s bit start openStop hempty]
      simp [hempty]
  · by_cases hempty : s.bytes = []
    · refine iff_of_true ?_ fun h => h.1 hempty
      rw [bitpos, specPos, hempty]
      rfl
    · rw [bitpos, if_neg hempty, if_neg (by simp), bitposBytes_iff s bit start openStop hempty]
      simp [hempty]

/-- On a string of one byte with a deadline: up to the largest integer but one `GETRANGE` gives all
of it, and `BITCOUNT k 0 -1` counts its bit. -/
theorem range_reads_exact_ahead :
    cmdGetrange plainEnv (some ⟨.growable [128], some 5⟩) 0 0 9223372036854775806 =
        some (.bulk (some [128])) ∧
      bitcount [128] 0 (-1) false = some 1 := by
  let env : OpeningEnv := ⟨plainEnv, fun _ _ h => by cases h; rfl⟩
  let s : StoredString := ⟨[128], by decide⟩
  refine ⟨?_, ?_⟩
  · exact (range_reads_exact_iff env ahead true true s 0 9223372036854775806 none).1.2 (by decide)
  · exact (range_reads_exact_iff env ahead true true s 0 (-1) none).2.2.1.2 (by decide)

/-- `GETRANGE k 0 9223372036854775807` stops the server. On a string of one byte with a single
one bit at its front, `BITCOUNT k 0 -9 BIT` counts it although the same range of bytes is empty;
`BITCOUNT k -5 -3` counts it as well, and `BITPOS k 1 0 -2` finds it. -/
theorem range_reads_stray :
    (cmdGetrange plainEnv (some ⟨.shared [128], none⟩) 0 0 9223372036854775807).isNone ∧
      bitcount [128] 0 (-9) true = some 1 ∧ bitcount [128] 0 (-2) false = some 0 ∧
      bitcount [128] (-5) (-3) false = some 1 ∧
      bitpos [128] true 0 (some (-2)) false = 0 ∧
      bitpos [128] true 0 (some (-9)) true = 0 := by
  refine ⟨?_, ?_, ?_, ?_, ?_, ?_⟩
  · decide +kernel
  · decide +kernel
  · decide +kernel
  · decide +kernel
  · decide +kernel
  · decide +kernel

end Lux.Strings
