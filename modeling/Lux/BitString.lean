import Mathlib.Data.Nat.Bitwise
import Mathlib.Data.List.Basic
import Mathlib.Data.List.Find
import Mathlib.Data.List.Range
import Mathlib.Algebra.Order.Ring.Nat

/-!
# Byte strings as strings of bits

The bits of a byte string are counted from the most significant bit of its first byte, and every
bit past its end is zero. `bitAt_setBitAt` reads any bit behind the replacement of one, and
`bitAt_setBits` behind the replacement of a block.

A block of bits is a number with its first bit the most significant (`number`). A number is
determined by its bits, so the number of a block that was written bit by bit from a value is the
value, up to the bits there was room for (`number_of_bits`).
-/

namespace BitString

open List

/-- A bit of a byte, counted from its least significant bit. -/
def byteBit (byte : UInt8) (shift : Nat) : Bool := (byte >>> UInt8.ofNat shift) &&& 1 == 1

/-- A byte with one of its bits replaced. -/
def setByteBit (byte : UInt8) (shift : Nat) (bit : Bool) : UInt8 :=
  if bit then byte ||| (1 <<< UInt8.ofNat shift) else byte &&& ~~~(1 <<< UInt8.ofNat shift)

theorem byteBit_zero (shift : Nat) : byteBit 0 shift = false := by
  simp [byteBit]

variable {buf : List UInt8} {shift : Nat}

theorem toNat_ofNat_mod (h : shift < 8) : (UInt8.ofNat shift).toNat % 8 = shift := by
  rw [UInt8.toNat_ofNat']
  omega

variable (byte : UInt8)

theorem byteBit_eq_testBit (h : shift < 8) : byteBit byte shift = byte.toNat.testBit shift := by
  rw [Bool.eq_iff_iff, byteBit, beq_iff_eq, ← UInt8.toNat_inj, UInt8.toNat_and,
    UInt8.toNat_shiftRight, toNat_ofNat_mod h, Nat.testBit_eq_decide_div_mod_eq, decide_eq_true_eq,
    Nat.shiftRight_eq_div_pow]
  exact Iff.of_eq (congrArg (· = 1) (Nat.and_one_is_mod _))

theorem toNat_mask (h : shift < 8) : (1 <<< UInt8.ofNat shift : UInt8).toNat = 2 ^ shift := by
  have hlt : 2 ^ shift < 2 ^ 8 := Nat.pow_lt_pow_right (by omega) h
  rw [UInt8.toNat_shiftLeft, toNat_ofNat_mod h, UInt8.toNat_one, Nat.one_shiftLeft,
    Nat.mod_eq_of_lt hlt]

theorem byteBit_setByteBit (bit : Bool) {shift other : Nat} (hshift : shift < 8)
    (hother : other < 8) :
    byteBit (setByteBit byte shift bit) other =
      if other = shift then bit else byteBit byte other := by
  rw [byteBit_eq_testBit _ hother, byteBit_eq_testBit _ hother]
  cases bit with
  | true =>
    rw [setByteBit, if_pos rfl, UInt8.toNat_or, toNat_mask hshift, Nat.testBit_or]
    by_cases heq : other = shift
    · simp [heq]
    · simp [heq, Ne.symm heq]
  | false =>
    have hmask : (255 - 2 ^ shift).testBit other = decide (other ≠ shift) := by
      have h := Nat.testBit_two_pow_sub_succ (Nat.pow_lt_pow_right (a := 2) (by omega) hshift) other
      rw [show 255 - 2 ^ shift = 2 ^ 8 - (2 ^ shift + 1) by omega, h, Nat.testBit_two_pow]
      simp [hother, eq_comm]
    have hnot : (~~~(1 <<< UInt8.ofNat shift) : UInt8).toNat = 255 - 2 ^ shift := by
      rw [UInt8.toNat_not, toNat_mask hshift]
      rfl
    rw [setByteBit, if_neg (by simp), UInt8.toNat_and, hnot, Nat.testBit_and, hmask]
    by_cases heq : other = shift
    · simp [heq]
    · simp [heq]

/-- A bit of a byte string. -/
def bitAt (buf : List UInt8) (i : Nat) : Bool :=
  (buf[i / 8]?).any fun byte => byteBit byte (7 - i % 8)

/-- A byte string with one of its bits replaced. -/
def setBitAt (buf : List UInt8) (i : Nat) (bit : Bool) : List UInt8 :=
  buf.modify (i / 8) fun byte => setByteBit byte (7 - i % 8) bit

/-- `Vec::resize` to at least `needed` bytes. -/
def grow (buf : List UInt8) (needed : Nat) : List UInt8 :=
  buf ++ List.replicate (needed - buf.length) 0

theorem length_grow (buf : List UInt8) (needed : Nat) :
    (grow buf needed).length = max buf.length needed := by
  simp only [grow, length_append, length_replicate]
  omega

@[simp] theorem length_setBitAt (buf : List UInt8) (i : Nat) (bit : Bool) :
    (setBitAt buf i bit).length = buf.length := by
  simp [setBitAt]

theorem bitAt_of_length_le {i : Nat} (h : buf.length ≤ i / 8) : bitAt buf i = false := by
  simp [bitAt, getElem?_eq_none h]

/-- Growing adds zeros, which were read there before. -/
@[simp] theorem bitAt_grow (buf : List UInt8) (needed i : Nat) :
    bitAt (grow buf needed) i = bitAt buf i := by
  by_cases hi : i / 8 < buf.length
  · simp only [bitAt, grow, getElem?_append_left hi]
  rw [bitAt_of_length_le (not_lt.mp hi)]
  simp only [bitAt, grow, getElem?_append_right (not_lt.mp hi), getElem?_replicate]
  split
  · simp [byteBit_zero]
  · rfl

/-- **Any bit behind the replacement of one.** -/
theorem bitAt_setBitAt {i : Nat} (hi : i / 8 < buf.length) (bit : Bool)
    (j : Nat) : bitAt (setBitAt buf i bit) j = if j = i then bit else bitAt buf j := by
  by_cases hbyte : j / 8 = i / 8
  · have hget : (setBitAt buf i bit)[j / 8]? =
        (buf[j / 8]?).map fun byte => setByteBit byte (7 - i % 8) bit := by
      simp only [setBitAt, getElem?_modify, if_pos hbyte.symm, Option.map_eq_map]
    have hj : j / 8 < buf.length := by omega
    have hsame : (7 - j % 8 = 7 - i % 8) ↔ j = i := by omega
    simp only [bitAt, hget, getElem?_eq_getElem hj, Option.map_some, Option.any_some]
    rw [byteBit_setByteBit _ _ (by omega) (by omega)]
    simp [hsame]
  · have hne : j ≠ i := fun h => hbyte (by rw [h])
    rw [if_neg hne]
    simp only [bitAt, setBitAt, getElem?_modify, if_neg (Ne.symm hbyte), id_map']

/-! ## Blocks -/

/-- A block of bits replaced one after another. -/
def setBits (buf : List UInt8) (offset n : Nat) (bits : Nat → Bool) : List UInt8 :=
  (List.range n).foldl (fun buf i => setBitAt buf (offset + i) (bits i)) buf

theorem setBits_succ (buf : List UInt8) (offset n : Nat) (bits : Nat → Bool) :
    setBits buf offset (n + 1) bits =
      setBitAt (setBits buf offset n bits) (offset + n) (bits n) := by
  simp [setBits, range_succ]

@[simp] theorem length_setBits (buf : List UInt8) (offset n : Nat) (bits : Nat → Bool) :
    (setBits buf offset n bits).length = buf.length := by
  induction n with
  | zero => rfl
  | succ n ih => rw [setBits_succ, length_setBitAt, ih]

/-- **Any bit behind the replacement of a block.** -/
theorem bitAt_setBits {offset n : Nat} (h : offset + n ≤ 8 * buf.length)
    (bits : Nat → Bool) (j : Nat) :
    bitAt (setBits buf offset n bits) j =
      if offset ≤ j ∧ j < offset + n then bits (j - offset) else bitAt buf j := by
  induction n with
  | zero =>
    rw [if_neg (by omega)]
    rfl
  | succ n ih =>
    rw [setBits_succ, bitAt_setBitAt (by rw [length_setBits]; omega), ih (by omega)]
    by_cases hlast : j = offset + n
    · subst hlast
      rw [if_pos rfl, if_pos (by omega), Nat.add_sub_cancel_left]
    · rw [if_neg hlast]
      have hrange : (offset ≤ j ∧ j < offset + n) ↔ (offset ≤ j ∧ j < offset + (n + 1)) := by
        omega
      simp [hrange]

/-! ## Numbers -/

/-- The number of the `n` bits from an offset on, the first of them the most significant. -/
def number (bits : Nat → Bool) (offset : Nat) : Nat → Nat
  | 0 => 0
  | n + 1 => 2 * number bits offset n + (bits (offset + n)).toNat

theorem number_lt (bits : Nat → Bool) (offset n : Nat) : number bits offset n < 2 ^ n := by
  induction n with
  | zero => simp [number]
  | succ n ih =>
    have hbit := Bool.toNat_le (bits (offset + n))
    rw [number]
    omega

theorem testBit_number (bits : Nat → Bool) (offset n j : Nat) :
    (number bits offset n).testBit j = (decide (j < n) && bits (offset + (n - 1 - j))) := by
  induction n generalizing j with
  | zero => simp [number]
  | succ n ih =>
    cases j with
    | zero =>
      cases hbit : bits (offset + n) with
      | false => simp [number, hbit]
      | true => simp [number, hbit]
    | succ j =>
      have hhalf : (2 * number bits offset n + (bits (offset + n)).toNat) / 2 =
          number bits offset n := by
        have hbit := Bool.toNat_le (bits (offset + n))
        omega
      rw [number, Nat.testBit_succ, hhalf, ih]
      have hindex : n + 1 - 1 - (j + 1) = n - 1 - j := by omega
      simp only [hindex, Nat.add_lt_add_iff_right]

/-- **A block that holds the bits of a value is the value**, up to the bits there is room for. -/
theorem number_of_bits {bits : Nat → Bool} {offset n value : Nat}
    (h : ∀ i < n, bits (offset + i) = value.testBit (n - 1 - i)) :
    number bits offset n = value % 2 ^ n := by
  apply Nat.eq_of_testBit_eq
  intro j
  rw [testBit_number, Nat.testBit_mod_two_pow]
  by_cases hj : j < n
  · rw [h (n - 1 - j) (by omega)]
    have hindex : n - 1 - (n - 1 - j) = j := by omega
    rw [hindex]
  · simp [hj]

/-! ## Scans -/

/-- The number of one bits of a byte. -/
def countOnes (byte : UInt8) : Nat := (List.range 8).countP fun b => byteBit byte (7 - b)

theorem bitAt_cons_of_lt (buf : List UInt8) {i : Nat} (h : i < 8) :
    bitAt (byte :: buf) i = byteBit byte (7 - i) := by
  have hdiv : i / 8 = 0 := by omega
  have hmod : i % 8 = i := by omega
  simp [bitAt, hdiv, hmod]

theorem bitAt_cons_add (buf : List UInt8) (i : Nat) :
    bitAt (byte :: buf) (8 + i) = bitAt buf i := by
  have hmod : (8 + i) % 8 = i % 8 := by omega
  simp [bitAt, hmod]

/-- The bits of a piece are those of the whole at shifted positions. -/
theorem bitAt_slice (buf : List UInt8) {first last i : Nat} (h : 8 * first + i < 8 * last) :
    bitAt ((buf.take last).drop first) i = bitAt buf (8 * first + i) := by
  have hdiv : (8 * first + i) / 8 = first + i / 8 := by omega
  have hmod : (8 * first + i) % 8 = i % 8 := by omega
  have hlt : first + i / 8 < last := by omega
  simp only [bitAt, hdiv, hmod, getElem?_drop, getElem?_take, if_pos hlt]

theorem range_eight (n : Nat) :
    List.range (8 * (n + 1)) = List.range 8 ++ (List.range (8 * n)).map (8 + ·) := by
  rw [show 8 * (n + 1) = 8 + 8 * n by omega, range_add]

/-- The one bits of a byte string, byte by byte. -/
theorem sum_countOnes (buf : List UInt8) :
    (buf.map countOnes).sum = (List.range (8 * buf.length)).countP (bitAt buf) := by
  induction buf with
  | nil => rfl
  | cons byte buf ih =>
    have hrest : (fun i => bitAt (byte :: buf) (8 + i)) = bitAt buf :=
      funext (bitAt_cons_add byte buf)
    rw [length_cons, range_eight, countP_append, countP_map, map_cons, sum_cons, ih]
    exact congrArg (fun p => countOnes byte + (range (8 * buf.length)).countP p) hrest.symm

/-- The first bit of a kind, byte by byte, with the bytes counted from `k`. -/
theorem findSome_bits (bit : Bool) (buf : List UInt8) : ∀ k : Nat,
    ((buf.zipIdx k).findSome? fun p =>
      ((List.range 8).find? fun b => byteBit p.1 (7 - b) == bit).map (p.2 * 8 + ·)) =
        ((List.range (8 * buf.length)).find? fun i => bitAt buf i == bit).map (8 * k + ·) := by
  induction buf with
  | nil => intro k; rfl
  | cons byte buf ih =>
    intro k
    have hfirst : ((range 8).find? fun i => bitAt (byte :: buf) i == bit) =
        (range 8).find? fun b => byteBit byte (7 - b) == bit := by
      apply find?_congr
      intro i hi
      rw [bitAt_cons_of_lt byte buf (mem_range.mp hi)]
    have hrest : (fun i => bitAt (byte :: buf) (8 + i) == bit) = fun i => bitAt buf i == bit := by
      funext i
      rw [bitAt_cons_add]
    rw [zipIdx_cons, findSome?_cons, length_cons, range_eight, find?_append, hfirst, find?_map, ih]
    cases (range 8).find? fun b => byteBit byte (7 - b) == bit with
    | some b => simp [Nat.mul_comm]
    | none =>
      simp only [Option.map_none, Option.none_or, Option.map_map, Function.comp_def, hrest]
      congr 1
      funext i
      omega

/-- A search of a range of positions is one of all positions. -/
theorem find_range' {p : Nat → Bool} {first last n : Nat} (h : last ≤ n) :
    (List.range' first (last - first)).find? p =
      (List.range n).find? fun i => p i && decide (first ≤ i ∧ i < last) := by
  cases hfound : (range n).find? fun i => p i && decide (first ≤ i ∧ i < last) with
  | none =>
    rw [find?_range_eq_none] at hfound
    rw [find?_range'_eq_none]
    intro i hfirst hlast
    have hi := hfound i (by omega)
    simp only [Bool.not_eq_true', Bool.and_eq_false_iff, decide_eq_false_iff_not] at hi ⊢
    rcases hi with hp | hout
    · exact hp
    · exact absurd ⟨hfirst, by omega⟩ hout
  | some i =>
    rw [find?_range_eq_some] at hfound
    obtain ⟨hp, hmem, hbefore⟩ := hfound
    simp only [Bool.and_eq_true, decide_eq_true_eq] at hp
    rw [find?_range'_eq_some]
    refine ⟨hp.1, ?_, ?_⟩
    · rw [mem_range'_1]
      omega
    · intro j hfirst hj
      have hnot := hbefore j hj
      simp only [Bool.not_eq_true', Bool.and_eq_false_iff, decide_eq_false_iff_not] at hnot ⊢
      rcases hnot with hp' | hout
      · exact hp'
      · exact absurd ⟨hfirst, by omega⟩ hout

/-- A count over a range of positions is one over all positions, when nothing counts past them. -/
theorem countP_range' {p : Nat → Bool} {first last n : Nat}
    (h : ∀ i, p i = true → i < last → i < n) :
    (List.range' first (last - first)).countP p =
      (List.range n).countP fun i => p i && decide (first ≤ i ∧ i < last) := by
  rw [countP_eq_length_filter, countP_eq_length_filter]
  apply Perm.length_eq
  rw [perm_ext_iff_of_nodup ((nodup_range' 1).filter _) (nodup_range.filter _)]
  intro i
  simp only [mem_filter, mem_range'_1, mem_range, Bool.and_eq_true, decide_eq_true_eq]
  constructor
  · intro hi
    exact ⟨h i hi.2 (by omega), hi.2, by omega⟩
  · intro hi
    exact ⟨by omega, hi.2.1⟩

end BitString
