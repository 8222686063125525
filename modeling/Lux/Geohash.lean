import Mathlib.Data.Nat.Bitwise
import Mathlib.Data.Rat.Floor
import Mathlib.Tactic.Linarith

/-!
# Geohash codes

A point is coded by its cell on a grid of `2 ^ 26` by `2 ^ 26` cells, the bits of its two indices
interleaved.  The bounds of a coordinate are accepted too, and at the upper one the index is
`2 ^ 26`, of which the code keeps no bit: the point is decoded at the other end.  Arithmetic is
exact.
-/

namespace Lux.Geohash

/-! ## Interleaving -/

/-- `interleave` after a number of rounds. -/
def interleave (x y : Nat) : Nat → Nat
  | 0 => 0
  | i + 1 =>
    (interleave x y i ||| ((x >>> i) &&& 1) <<< (i * 2 + 1)) ||| ((y >>> i) &&& 1) <<< (i * 2)

/-- `deinterleave` after a number of rounds. -/
def deinterleave (hash : Nat) : Nat → Nat × Nat
  | 0 => (0, 0)
  | i + 1 =>
    let (x, y) := deinterleave hash i
    (x ||| ((hash >>> (i * 2 + 1)) &&& 1) <<< i, y ||| ((hash >>> (i * 2)) &&& 1) <<< i)

theorem testBit_moved (x i k j : Nat) :
    (((x >>> i) &&& 1) <<< k).testBit j = (decide (j = k) && x.testBit i) := by
  rw [Nat.testBit_shiftLeft, Nat.testBit_and, Nat.testBit_shiftRight]
  grind [Nat.testBit_one_eq_true_iff_self_eq_zero]

/-- The longitude has the odd bits, the latitude the even ones. -/
theorem testBit_interleave (x y n j : Nat) :
    (interleave x y n).testBit j =
      (decide (j / 2 < n) && (if j % 2 = 1 then x else y).testBit (j / 2)) := by
  induction n with
  | zero => simp [interleave]
  | succ n ih =>
    rw [interleave, Nat.testBit_or, Nat.testBit_or, ih, testBit_moved, testBit_moved]
    grind

/-- Each half takes its own bits back. -/
theorem testBit_deinterleave (hash n j : Nat) :
    (deinterleave hash n).1.testBit j = (decide (j < n) && hash.testBit (j * 2 + 1)) ∧
      (deinterleave hash n).2.testBit j = (decide (j < n) && hash.testBit (j * 2)) := by
  induction n with
  | zero => simp [deinterleave]
  | succ n ih =>
    simp only [deinterleave, Nat.testBit_or, ih, testBit_moved]
    grind

/-- The rounds carry that many bits of each number. -/
theorem deinterleave_interleave (x y n : Nat) :
    deinterleave (interleave x y n) n = (x % 2 ^ n, y % 2 ^ n) := by
  apply Prod.ext
  · apply Nat.eq_of_testBit_eq
    intro j
    rw [(testBit_deinterleave _ n j).1, testBit_interleave, Nat.testBit_mod_two_pow]
    grind
  · apply Nat.eq_of_testBit_eq
    intro j
    rw [(testBit_deinterleave _ n j).2, testBit_interleave, Nat.testBit_mod_two_pow]
    grind

/-! ## One coordinate -/

def geoStep : Nat := 26

/-- A coordinate: its bounds, and how far it goes. -/
structure Axis where
  low : ℚ
  high : ℚ
  range : ℚ
  range_eq : range = high - low
  low_lt_high : low < high

namespace Axis

variable (axis : Axis) {u v : ℚ}

def contains (v : ℚ) : Bool := decide (axis.low ≤ v ∧ v ≤ axis.high)

/-- The cell of a coordinate; the upper end of the axis has the cell behind the last one. -/
def index (v : ℚ) : Nat := ⌊(v - axis.low) / axis.range * 2 ^ geoStep⌋₊

/-- The middle of a cell. -/
def center (bits : Nat) : ℚ :=
  let min := axis.low + bits / 2 ^ geoStep * axis.range
  let max := axis.low + (bits + 1) / 2 ^ geoStep * axis.range
  (min + max) / 2

def cell : ℚ := axis.range / 2 ^ geoStep

/-- What is decoded for a coordinate. -/
def restored (v : ℚ) : ℚ := axis.center (axis.index v % 2 ^ geoStep)

theorem center_eq (bits : Nat) : axis.center bits = axis.low + (bits + 1 / 2) * axis.cell := by
  rw [center, cell]
  ring

theorem range_pos : 0 < axis.range := by
  rw [axis.range_eq]
  exact sub_pos.2 axis.low_lt_high

theorem cell_pos : 0 < axis.cell := div_pos axis.range_pos (by norm_num)

theorem high_eq : axis.high = axis.low + 2 ^ geoStep * axis.cell := by
  rw [cell, mul_div_cancel₀ _ (by norm_num), axis.range_eq, add_sub_cancel]

/-- A coordinate below the upper bound is decoded to the middle of its cell. -/
theorem restored_near (h : axis.contains v) (hhigh : v < axis.high) :
    |v - axis.restored v| ≤ axis.cell / 2 := by
  have hcell := axis.cell_pos
  have hindex : axis.index v = ⌊(v - axis.low) / axis.cell⌋₊ := by
    rw [index, cell, div_div_eq_mul_div, div_mul_eq_mul_div]
  have hoffset : 0 ≤ (v - axis.low) / axis.cell :=
    div_nonneg (sub_nonneg.2 (of_decide_eq_true h).1) hcell.le
  have hbelow := (le_div_iff₀ hcell).1 (Nat.floor_le hoffset)
  have habove := (div_lt_iff₀ hcell).1 (Nat.lt_floor_add_one ((v - axis.low) / axis.cell))
  have hkept : axis.index v < 2 ^ geoStep := by
    rw [hindex, Nat.floor_lt hoffset, div_lt_iff₀ hcell]
    push_cast
    linarith [axis.high_eq]
  rw [restored, Nat.mod_eq_of_lt hkept, center_eq, hindex, abs_le]
  constructor <;> linarith

/-- The upper bound is decoded to the middle of the first cell. -/
theorem restored_high : axis.restored axis.high = axis.low + axis.cell / 2 := by
  have hindex : axis.index axis.high = 2 ^ geoStep := by
    rw [index, ← axis.range_eq, div_self axis.range_pos.ne', one_mul]
    exact_mod_cast Nat.floor_natCast (2 ^ geoStep)
  rw [restored, hindex, Nat.mod_self, center_eq]
  push_cast
  linarith

/-- **One axis**: a coordinate comes back within a cell, unless it is the upper end. -/
theorem restored_iff (h : axis.contains v) :
    |v - axis.restored v| ≤ axis.cell ↔ v < axis.high := by
  have hcell := axis.cell_pos
  constructor
  · intro hnear
    refine (of_decide_eq_true h).2.lt_of_ne fun heq => ?_
    have hhigh := axis.high_eq
    rw [heq, restored_high] at hnear
    rw [geoStep] at hhigh
    linarith [(abs_le.1 hnear).2]
  · intro hhigh
    linarith [axis.restored_near h hhigh]

/-- Coordinates below the upper bound that are decoded alike are at most a cell apart. -/
theorem near_of_restored_eq (hu : axis.contains u) (hu' : u < axis.high)
    (hv : axis.contains v) (hv' : v < axis.high) (h : axis.restored u = axis.restored v) :
    |u - v| ≤ axis.cell := by
  have hleft := axis.restored_near hu hu'
  have hright := axis.restored_near hv hv'
  rw [h] at hleft
  rw [abs_le] at *
  constructor <;> linarith

end Axis

/-! ## Points -/

def geoLatMin : ℚ := -85.05112878

def geoLatMax : ℚ := 85.05112878

def lonAxis : Axis := ⟨-180, 180, 360, by norm_num, by norm_num⟩

def latAxis : Axis :=
  ⟨geoLatMin, geoLatMax, geoLatMax - geoLatMin, rfl, by norm_num [geoLatMin, geoLatMax]⟩

/-- `validate_coords`, the text of its error apart. -/
def validateCoords (lon lat : ℚ) : Bool := lonAxis.contains lon && latAxis.contains lat

def geohashEncode (lon lat : ℚ) : Nat :=
  interleave (lonAxis.index lon) (latAxis.index lat) geoStep

def geohashDecode (hash : Nat) : ℚ × ℚ :=
  let (lonBits, latBits) := deinterleave hash geoStep
  (lonAxis.center lonBits, latAxis.center latBits)

/-- What the code restores, on both axes at once. -/
theorem geohashDecode_encode (lon lat : ℚ) :
    geohashDecode (geohashEncode lon lat) = (lonAxis.restored lon, latAxis.restored lat) := by
  rw [geohashDecode, geohashEncode, deinterleave_interleave]
  rfl

/-- An accepted point. -/
structure Point where
  lon : ℚ
  lat : ℚ
  accepted : validateCoords lon lat

namespace Point

variable (p q : Point)

def code : Nat := geohashEncode p.lon p.lat

/-- At most one cell away in both coordinates. -/
def Near (other : ℚ × ℚ) : Prop :=
  |p.lon - other.1| ≤ lonAxis.cell ∧ |p.lat - other.2| ≤ latAxis.cell

theorem contained : lonAxis.contains p.lon ∧ latAxis.contains p.lat := by
  simpa [validateCoords] using p.accepted

theorem near_decode_iff : p.Near (geohashDecode p.code) ↔ p.lon < 180 ∧ p.lat < geoLatMax := by
  rw [code, geohashDecode_encode]
  exact and_congr (lonAxis.restored_iff p.contained.1) (latAxis.restored_iff p.contained.2)

/-- Points with one code are near each other. -/
theorem near_of_code_eq (hp : p.lon < 180 ∧ p.lat < geoLatMax)
    (hq : q.lon < 180 ∧ q.lat < geoLatMax) (h : p.code = q.code) : p.Near (q.lon, q.lat) := by
  have hdecoded := congrArg geohashDecode h
  rw [code, code, geohashDecode_encode, geohashDecode_encode, Prod.mk.injEq] at hdecoded
  exact ⟨lonAxis.near_of_restored_eq p.contained.1 hp.1 q.contained.1 hq.1 hdecoded.1,
    latAxis.near_of_restored_eq p.contained.2 hp.2 q.contained.2 hq.2 hdecoded.2⟩

end Point

/-- Accepted points are decoded in their cell, and two with one code are at most a cell apart,
exactly when none is on the upper bound of a coordinate. -/
theorem geohash_in_cell_iff (points : Set Point) :
    ((∀ p ∈ points, p.Near (geohashDecode p.code)) ∧
        ∀ p ∈ points, ∀ q ∈ points, p.code = q.code → p.Near (q.lon, q.lat)) ↔
      ∀ p ∈ points, p.lon < 180 ∧ p.lat < geoLatMax := by
  constructor
  · intro h p hp
    exact p.near_decode_iff.1 (h.1 p hp)
  · intro h
    refine ⟨fun p hp => p.near_decode_iff.2 (h p hp), ?_⟩
    intro p hp q hq hcode
    exact p.near_of_code_eq q (h p hp) (h q hq) hcode

/-- A point at longitude 180 has the code of its namesake at -180 and is decoded there. -/
theorem geohash_antimeridian :
    ∃ east west : Point, east.lon = 180 ∧ west.lon = -180 ∧ east.code = west.code ∧
      ¬ east.Near (geohashDecode east.code) := by
  refine ⟨⟨180, 0, by decide +kernel⟩, ⟨-180, 0, by decide +kernel⟩, rfl, rfl, ?_, ?_⟩
  · decide +kernel
  · rw [Point.near_decode_iff]
    exact fun h => lt_irrefl _ h.1

end Lux.Geohash
