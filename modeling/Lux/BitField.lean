import Lux.BitString
import Lux.Machine64
import Lux.Readers

/-!
# Bit fields

`BITFIELD` reads and writes integers of one to sixty-four bits at any bit offset of a string.
The parser lets no other field through, and `Field` carries what it has checked.

Above the loops over single bits stands the array of bits that a string is: a field is the
integer written in its block (`Field.value`), and storing an integer replaces the block and
nothing else (`Field.put`). `bitAt_bfWrite` and `toInt_bfRead` connect the two, `runOp_refines`
carries that over to one operation and `runOps_refines` to a whole call.
-/

namespace Lux.BitField

open ByteCodec StdText BitString Field

/-! ## The operations -/

/-- `BitfieldOverflow`. -/
inductive Overflow where
  | wrap
  | sat
  | fail
  deriving DecidableEq

/-- A field type as `parse_bitfield_type` lets it through. -/
structure Width where
  signed : Bool
  bits : Nat
  pos : 1 ≤ bits
  narrow : bits ≤ if signed then 64 else 63
  deriving DecidableEq

/-- A field as `parse_bitfield_offset` lets it through. -/
structure Field extends Width where
  offset : Nat
  /-- `offset + bits` does not leave the 64-bit range. -/
  fits : offset + bits < 2 ^ 64
  deriving DecidableEq

variable (f : Field)

theorem Field.bits_le : f.bits ≤ 64 := by
  have h := f.narrow
  split at h <;> omega

/-- `BitfieldOp`. -/
inductive BitfieldOp where
  | get (field : Field)
  | set (field : Field) (value : Int64) (overflow : Overflow)
  | incrBy (field : Field) (incr : Int64) (overflow : Overflow)
  deriving DecidableEq

/-- `bf_read`. -/
def bfRead (buf : Bytes) (f : Field) : Int64 :=
  let val := (List.range f.bits).foldl
    (fun (val : UInt64) i => (val <<< 1) ||| (bitAt buf (f.offset + i)).toUInt64) 0
  if f.signed ∧ f.bits < 64 ∧ (val >>> UInt64.ofNat (f.bits - 1)) &&& 1 = 1 then
    (val ||| (~~~0 <<< UInt64.ofNat f.bits)).toInt64
  else val.toInt64

/-- `bf_write`. -/
def bfWrite (buf : Bytes) (f : Field) (value : UInt64) : Bytes :=
  let needed := (f.offset + f.bits + 7) / 8
  setBits (grow buf needed) f.offset f.bits fun i =>
    (value >>> UInt64.ofNat (f.bits - 1 - i)) &&& 1 == 1

/-- The least integer of a field. -/
def Field.min (f : Field) : Int := if f.signed then -(2 ^ (f.bits - 1)) else 0

/-- The largest integer of a field. -/
def Field.max (f : Field) : Int := if f.signed then 2 ^ (f.bits - 1) - 1 else 2 ^ f.bits - 1

/-- `bf_clamp`, whose 128-bit arithmetic never overflows. -/
def bfClamp (f : Field) (val : Int) (mode : Overflow) : Option Int64 :=
  if f.min ≤ val ∧ val ≤ f.max then some (Int64.ofInt val)
  else
    match mode with
    | .fail => none
    | .sat => some (Int64.ofInt (if val < f.min then f.min else f.max))
    | .wrap =>
      let w := val % 2 ^ f.bits
      some (Int64.ofInt (if f.signed ∧ f.max < w then w - 2 ^ f.bits else w))

/-- One operation of a call: the string afterwards, and the reply. -/
def runOp (buf : Bytes) : BitfieldOp → Bytes × Option Int64
  | .get f => (buf, some (bfRead buf f))
  | .set f value mode =>
    match bfClamp f value.toInt mode with
    | some v => (bfWrite buf f v.toUInt64, some (bfRead buf f))
    | none => (buf, none)
  | .incrBy f incr mode =>
    match bfClamp f ((bfRead buf f).toInt + incr.toInt) mode with
    | some v => (bfWrite buf f v.toUInt64, some v)
    | none => (buf, none)

/-- The operations of a call, in order. -/
def runOps : Bytes → List BitfieldOp → Bytes × List (Option Int64)
  | buf, [] => (buf, [])
  | buf, op :: ops =>
    let (buf, result) := runOp buf op
    let (buf, results) := runOps buf ops
    (buf, result :: results)

/-! ### Arguments -/

def typeErr : String :=
  "ERR Invalid bitfield type. Use something like i16 u8. " ++
    "Note that u64 is not supported but i64 is."

def offsetErr : String := "ERR bit offset is not an integer or out of range"

def syntaxErr : String := "ERR syntax error"

def integerErr : String := "ERR value is not an integer or out of range"

/-- `cmd_eq`. -/
def cmdEq (arg : Bytes) (name : String) : Bool :=
  eqIgnoreAsciiCase (arg.map fun b => Char.ofNat b.toNat) (str name)

/-- `parse_bitfield_type`. A width that is no 32-bit number is refused with the same error as
one that is out of range. -/
def parseBitfieldType (arg : Bytes) : Except String Width :=
  match arg with
  | [] => .error typeErr
  | kind :: digits =>
    if kind = 105 ∨ kind = 73 ∨ kind = 117 ∨ kind = 85 then
      let signed : Bool := kind = 105 ∨ kind = 73
      match (fromUtf8? digits).bind parseUsize with
      | none => .error typeErr
      | some bits =>
        if h : 1 ≤ bits ∧ bits ≤ (if signed then 64 else 63) then
          .ok ⟨signed, bits, h.1, h.2⟩
        else .error typeErr
    else .error typeErr

/-- `parse_bitfield_offset`: `#n` counts in fields. -/
def parseBitfieldOffset (arg : Bytes) (width : Width) (maxBytes : Nat) : Except String Field :=
  let (mult, digits) := match arg with
    | 35 :: digits => (true, digits)
    | _ => (false, arg)
  match (fromUtf8? digits).bind parseUsize with
  | none => .error offsetErr
  | some n =>
    let offset := if mult then n * width.bits else n
    if h : offset + width.bits < 2 ^ 64 then
      if (offset + width.bits) / 8 + 1 ≤ maxBytes then .ok ⟨width, offset, h⟩
      else .error offsetErr
    else .error offsetErr

/-- A field from its two arguments. -/
def parseField (typeArg offsetArg : Bytes) (maxBytes : Nat) : Except String Field := do
  let width ← parseBitfieldType typeArg
  parseBitfieldOffset offsetArg width maxBytes

/-- `OVERFLOW` and its argument. -/
def parseOverflow (arg : Bytes) : Except String Overflow :=
  if cmdEq arg "WRAP" then .ok .wrap
  else if cmdEq arg "SAT" then .ok .sat
  else if cmdEq arg "FAIL" then .ok .fail
  else .error "ERR Invalid OVERFLOW type specified"

/-- `parse_i64`. -/
def parseInteger (arg : Bytes) : Option Int64 := (parseI64 (argStr arg)).map Int64.ofInt

/-- A field and an integer, for `SET` and `INCRBY`. -/
def parseWrite (typeArg offsetArg valueArg : Bytes) (maxBytes : Nat) :
    Except String (Field × Int64) := do
  let f ← parseField typeArg offsetArg maxBytes
  match parseInteger valueArg with
  | some value => .ok (f, value)
  | none => .error integerErr

/-- The arguments of `BITFIELD` and `BITFIELD_RO`, from left to right. -/
def parseOps (readonly : Bool) (maxBytes : Nat) (overflow : Overflow) :
    List Bytes → Except String (List BitfieldOp)
  | [] => .ok []
  | word :: args =>
    if cmdEq word "GET" then
      match args with
      | typeArg :: offsetArg :: rest => do
          let f ← parseField typeArg offsetArg maxBytes
          let ops ← parseOps readonly maxBytes overflow rest
          .ok (.get f :: ops)
      | _ => .error syntaxErr
    else if !readonly && cmdEq word "SET" then
      match args with
      | typeArg :: offsetArg :: valueArg :: rest => do
          let (f, value) ← parseWrite typeArg offsetArg valueArg maxBytes
          let ops ← parseOps readonly maxBytes overflow rest
          .ok (.set f value overflow :: ops)
      | _ => .error syntaxErr
    else if !readonly && cmdEq word "INCRBY" then
      match args with
      | typeArg :: offsetArg :: valueArg :: rest => do
          let (f, incr) ← parseWrite typeArg offsetArg valueArg maxBytes
          let ops ← parseOps readonly maxBytes overflow rest
          .ok (.incrBy f incr overflow :: ops)
      | _ => .error syntaxErr
    else if !readonly && cmdEq word "OVERFLOW" then
      match args with
      | modeArg :: rest => do
          let mode ← parseOverflow modeArg
          parseOps readonly maxBytes mode rest
      | _ => .error syntaxErr
    else if readonly then .error "ERR BITFIELD_RO only supports the GET subcommand"
    else .error syntaxErr

/-! ## The array of bits -/

/-- The bit belongs to the field. -/
def Field.Covers (f : Field) (j : Nat) : Prop := f.offset ≤ j ∧ j < f.offset + f.bits

instance (f : Field) (j : Nat) : Decidable (f.Covers j) :=
  inferInstanceAs (Decidable (_ ∧ _))

/-- The integer in a field. -/
def Field.value (f : Field) (bits : Nat → Bool) : Int :=
  let n := number bits f.offset f.bits
  if f.signed ∧ 2 ^ (f.bits - 1) ≤ n then (n : Int) - 2 ^ f.bits else n

/-- The array with an integer stored in a field, modulo the width of the field. -/
def Field.put (f : Field) (bits : Nat → Bool) (v : Int) : Nat → Bool := fun j =>
  if f.Covers j then (v % 2 ^ f.bits).toNat.testBit (f.bits - 1 - (j - f.offset)) else bits j

/-- The integer of the field that is congruent to a given one modulo its width. -/
def Field.reduce (f : Field) (v : Int) : Int := (v - f.min) % 2 ^ f.bits + f.min

/-- What is stored for an unbounded result: nothing when it does not fit and must not change. -/
def Field.stored (f : Field) (mode : Overflow) (v : Int) : Option Int :=
  match mode with
  | .wrap => some (f.reduce v)
  | .sat => some (Max.max f.min (Min.min f.max v))
  | .fail => if f.min ≤ v ∧ v ≤ f.max then some v else none

theorem two_pow_bits : (2 : Int) ^ f.bits = 2 * 2 ^ (f.bits - 1) := by
  have h : f.bits = (f.bits - 1) + 1 := by have := f.pos; omega
  rw [← pow_succ', ← h]

theorem Field.max_eq : f.max = f.min + 2 ^ f.bits - 1 := by
  have h := two_pow_bits f
  unfold max min
  split <;> omega

theorem Field.min_le_reduce (v : Int) : f.min ≤ f.reduce v := by
  unfold reduce
  omega

theorem Field.reduce_le_max (v : Int) : f.reduce v ≤ f.max := by
  rw [f.max_eq]
  unfold reduce
  omega

variable {f : Field} {v : Int} {mode : Overflow}

theorem Field.reduce_of_mem (hmin : f.min ≤ v) (hmax : v ≤ f.max) : f.reduce v = v := by
  rw [f.max_eq] at hmax
  unfold reduce
  rw [Int.emod_eq_of_lt (by omega) (by omega)]
  omega

/-- **What is stored in a field is what is read from it**, for every integer of the field. -/
theorem Field.value_put (hmin : f.min ≤ v) (hmax : v ≤ f.max) (bits : Nat → Bool) :
    f.value (f.put bits v) = v := by
  have hpow := two_pow_bits f
  have hnonneg := Int.emod_nonneg v (by positivity : (2 : Int) ^ f.bits ≠ 0)
  have hlt := Int.emod_lt_of_pos v (by positivity : (0 : Int) < 2 ^ f.bits)
  have hnumber : (number (f.put bits v) f.offset f.bits : Int) = v % 2 ^ f.bits := by
    have hbits : ∀ i < f.bits, f.put bits v (f.offset + i) =
        (v % 2 ^ f.bits).toNat.testBit (f.bits - 1 - i) := by
      intro i hi
      have hcovers : f.Covers (f.offset + i) := ⟨by omega, by omega⟩
      rw [put, if_pos hcovers, Nat.add_sub_cancel_left]
    have hsmall : (v % 2 ^ f.bits).toNat < 2 ^ f.bits := by
      rw [Int.toNat_lt hnonneg]
      exact_mod_cast hlt
    rw [number_of_bits hbits, Nat.mod_eq_of_lt hsmall, Int.toNat_of_nonneg hnonneg]
  have hhigh : (2 ^ (f.bits - 1) ≤ number (f.put bits v) f.offset f.bits) ↔
      (2 : Int) ^ (f.bits - 1) ≤ v % 2 ^ f.bits := by
    rw [← hnumber]
    exact_mod_cast Iff.rfl
  simp only [value, hnumber]
  unfold min at hmin
  unfold max at hmax
  cases hsigned : f.signed with
  | false =>
    simp only [hsigned] at hmin hmax
    exact Int.emod_eq_of_lt hmin (by omega)
  | true =>
    simp only [hsigned, if_true] at hmin hmax
    simp only [true_and]
    by_cases hneg : 0 ≤ v
    · have hsame : v % 2 ^ f.bits = v := Int.emod_eq_of_lt hneg (by omega)
      rw [hsame, if_neg (by omega)]
    · -- A negative integer is stored above the sign bit.
      have hsame : v % 2 ^ f.bits = v + 2 ^ f.bits := by
        rw [← Int.add_emod_right]
        exact Int.emod_eq_of_lt (by omega) (by omega)
      omega

/-! ## The loops -/

/-- The loop of `bf_read` collects the number of the block. -/
theorem toNat_readLoop (bits : Nat → Bool) (offset : Nat) {n : Nat} (h : n ≤ 64) :
    ((List.range n).foldl
      (fun (val : UInt64) i => (val <<< 1) ||| (bits (offset + i)).toUInt64) 0).toNat =
        number bits offset n := by
  induction n with
  | zero => rfl
  | succ n ih =>
    have hlt := number_lt bits offset n
    have hpow : 2 ^ n ≤ 2 ^ 63 := Nat.pow_le_pow_right (by omega) (by omega)
    have hbit : (bits (offset + n)).toUInt64.toNat = (bits (offset + n)).toNat := by
      cases bits (offset + n) <;> rfl
    have hdouble : number bits offset n <<< 1 % 2 ^ 64 = 2 ^ 1 * number bits offset n := by
      omega
    rw [List.range_succ, List.foldl_append, List.foldl_cons, List.foldl_nil, UInt64.toNat_or,
      UInt64.toNat_shiftLeft, ih (by omega), hbit, UInt64.toNat_one, hdouble,
      ← Nat.two_pow_add_eq_or_of_lt (Bool.toNat_lt _)]
    rfl

/-- The top bit of a block says whether its number lies in the upper half. -/
theorem testBit_top {n k : Nat} (h : n < 2 ^ (k + 1)) : n.testBit k = true ↔ 2 ^ k ≤ n := by
  rw [Nat.testBit_eq_decide_div_mod_eq, decide_eq_true_eq]
  have hquot : n / 2 ^ k < 2 := by
    rw [Nat.div_lt_iff_lt_mul (by positivity)]
    omega
  rw [Nat.mod_eq_of_lt hquot, ← Nat.one_le_div_iff (by positivity)]
  omega

/-- Filling the bits above a block takes its width's power off. -/
theorem toInt_extended {val : UInt64} {bits : Nat} (hbits : bits < 64)
    (hhigh : val.toNat < 2 ^ bits) :
    (val ||| (~~~0 <<< UInt64.ofNat bits)).toInt64.toInt = (val.toNat : Int) - 2 ^ bits := by
  have hsplit : (2 : Nat) ^ 64 = 2 ^ bits * 2 ^ (64 - bits) := by
    rw [← Nat.pow_add]
    congr 1
    omega
  have hhalf : 2 ^ bits ≤ 2 ^ 63 := Nat.pow_le_pow_right (by omega) (by omega)
  have hshift : (UInt64.ofNat bits).toNat % 64 = bits := by
    rw [UInt64.toNat_ofNat']
    omega
  have hmask : (~~~0 <<< UInt64.ofNat bits : UInt64).toNat = 2 ^ bits * (2 ^ (64 - bits) - 1) := by
    have hexpand : (2 ^ 64 - 1) * 2 ^ bits =
        2 ^ bits * (2 ^ (64 - bits) - 1) + 2 ^ 64 * (2 ^ bits - 1) := by
      rw [Nat.mul_sub, Nat.mul_sub, Nat.sub_mul, ← hsplit, Nat.mul_one, Nat.one_mul]
      omega
    have hsmall : 2 ^ bits * (2 ^ (64 - bits) - 1) < 2 ^ 64 := by
      omega
    have hones : (~~~0 : UInt64).toNat = 2 ^ 64 - 1 := rfl
    rw [UInt64.toNat_shiftLeft, hshift, hones, Nat.shiftLeft_eq, hexpand,
      Nat.add_mul_mod_self_left, Nat.mod_eq_of_lt hsmall]
  have hor : (val ||| (~~~0 <<< UInt64.ofNat bits)).toNat = 2 ^ 64 - 2 ^ bits + val.toNat := by
    rw [UInt64.toNat_or, hmask, Nat.or_comm, ← Nat.two_pow_add_eq_or_of_lt hhigh, Nat.mul_sub,
      ← hsplit, Nat.mul_one]
  have hcast : ((2 ^ bits : Nat) : Int) = 2 ^ bits := by push_cast; rfl
  rw [Machine64.toInt_toInt64, hor, ← hcast]
  omega

variable (buf : Bytes)

/-- **`bf_read` is the integer in the field.** -/
theorem toInt_bfRead (f : Field) : (bfRead buf f).toInt = f.value (bitAt buf) := by
  have hloop := toNat_readLoop (bitAt buf) f.offset f.bits_le
  have hlt := number_lt (bitAt buf) f.offset f.bits
  have hpos := f.pos
  have hnarrow := f.narrow
  have hpow : 2 ^ f.bits = 2 ^ (f.bits - 1 + 1) := by rw [Nat.sub_add_cancel hpos]
  unfold bfRead Field.value
  generalize (List.range f.bits).foldl
    (fun (val : UInt64) i => (val <<< 1) ||| (bitAt buf (f.offset + i)).toUInt64) 0 = val at hloop
  rw [← hloop] at hlt ⊢
  have htop : (val >>> UInt64.ofNat (f.bits - 1)) &&& 1 = 1 ↔ 2 ^ (f.bits - 1) ≤ val.toNat := by
    rw [Machine64.shiftRight_and_one val (by have := f.bits_le; omega)]
    exact testBit_top (by rw [← hpow]; exact hlt)
  simp only [htop]
  cases hsigned : f.signed with
  | false =>
    rw [hsigned] at hnarrow
    have hsmall : 2 ^ f.bits ≤ 2 ^ 63 := Nat.pow_le_pow_right (by omega) (by simpa using hnarrow)
    simp only [Bool.false_eq_true, false_and, if_false]
    rw [Machine64.toInt_toInt64, if_pos (by omega)]
  | true =>
    simp only [true_and]
    by_cases hhalf : 2 ^ (f.bits - 1) ≤ val.toNat
    · rw [if_pos hhalf]
      by_cases hwide : f.bits < 64
      · rw [if_pos ⟨hwide, hhalf⟩, toInt_extended hwide hlt]
      · have hfull : f.bits = 64 := by have := f.bits_le; omega
        rw [hfull] at hhalf ⊢
        rw [if_neg (by omega), Machine64.toInt_toInt64, if_neg (by simpa using hhalf)]
    · have hsmall : 2 ^ (f.bits - 1) ≤ 2 ^ 63 :=
        Nat.pow_le_pow_right (by omega) (by have := f.bits_le; omega)
      rw [if_neg hhalf, if_neg (fun h => hhalf h.2), Machine64.toInt_toInt64, if_pos (by omega)]

/-- **`bf_write` stores its argument in the field and nothing else.** -/
theorem bitAt_bfWrite (f : Field) (v : Int64) :
    bitAt (bfWrite buf f v.toUInt64) = f.put (bitAt buf) v.toInt := by
  have hbits := f.bits_le
  have hroom : f.offset + f.bits ≤ 8 * (grow buf ((f.offset + f.bits + 7) / 8)).length := by
    rw [length_grow]
    omega
  have hmod : (v.toInt % 2 ^ f.bits).toNat = v.toUInt64.toNat % 2 ^ f.bits := by
    have hdvd : (2 : Int) ^ f.bits ∣ 2 ^ 64 := pow_dvd_pow 2 hbits
    have hsame : (v.toUInt64.toNat : Int) % 2 ^ f.bits = v.toInt % 2 ^ f.bits := by
      rw [Machine64.toNat_toUInt64]
      split
      · rfl
      · obtain ⟨k, hk⟩ := hdvd
        rw [hk, Int.add_mul_emod_self_left]
    rw [← hsame]
    exact_mod_cast Int.toNat_natCast (v.toUInt64.toNat % 2 ^ f.bits)
  funext j
  rw [bfWrite, bitAt_setBits hroom, bitAt_grow, Field.put]
  by_cases hj : f.Covers j
  · have hblock : f.offset ≤ j ∧ j < f.offset + f.bits := hj
    have hindex : f.bits - 1 - (j - f.offset) < f.bits := by have := f.pos; omega
    rw [if_pos hblock, if_pos hj, hmod, Bool.eq_iff_iff, beq_iff_eq,
      Machine64.shiftRight_and_one _ (by omega)]
    simp [hindex]
  · have hblock : ¬ (f.offset ≤ j ∧ j < f.offset + f.bits) := hj
    rw [if_neg hblock, if_neg hj]

/-! ## The overflow rules -/

theorem Field.min_le_max : f.min ≤ f.max := by
  have hpos : (0 : Int) < 2 ^ f.bits := by positivity
  rw [f.max_eq]
  omega

theorem Field.stored_mem {w : Int} (h : f.stored mode v = some w) :
    f.min ≤ w ∧ w ≤ f.max := by
  have hrange := f.min_le_max
  cases mode with
  | wrap =>
    injection h with h
    rw [← h]
    exact ⟨f.min_le_reduce v, f.reduce_le_max v⟩
  | sat =>
    cases h
    omega
  | fail =>
    simp only [stored] at h
    split at h
    · rename_i hmem
      injection h with h
      rw [← h]
      exact hmem
    · cases h

/-- The integers of a field are 64-bit integers. -/
theorem toInt_ofInt_of_mem (hmin : f.min ≤ v) (hmax : v ≤ f.max) : (Int64.ofInt v).toInt = v := by
  have hnarrow := f.narrow
  have hbounds : -(2 ^ 63) ≤ f.min ∧ f.max < 2 ^ 63 := by
    unfold Field.min Field.max
    cases hsigned : f.signed with
    | false =>
      rw [hsigned] at hnarrow
      have hpow : (2 : Int) ^ f.bits ≤ 2 ^ 63 :=
        pow_le_pow_right₀ (by norm_num) (by simpa using hnarrow)
      simp only [Bool.false_eq_true, if_false]
      omega
    | true =>
      have hpow : (2 : Int) ^ (f.bits - 1) ≤ 2 ^ 63 :=
        pow_le_pow_right₀ (by norm_num) (by have := f.bits_le; omega)
      simp only [if_true]
      omega
  exact Int64.toInt_ofInt_of_le (by omega) (by omega)

/-- **`bf_clamp` follows the overflow rules.** -/
theorem bfClamp_eq (val : Int) (mode : Overflow) :
    bfClamp f val mode = (f.stored mode val).map Int64.ofInt := by
  have hmax := f.max_eq
  unfold bfClamp
  by_cases hmem : f.min ≤ val ∧ val ≤ f.max
  · rw [if_pos hmem]
    cases mode with
    | wrap => rw [Field.stored, f.reduce_of_mem hmem.1 hmem.2]; rfl
    | sat =>
      have hsame : Max.max f.min (Min.min f.max val) = val := by omega
      rw [Field.stored, hsame]
      rfl
    | fail => rw [Field.stored, if_pos hmem]; rfl
  rw [if_neg hmem]
  cases mode with
  | fail => rw [Field.stored, if_neg hmem]; rfl
  | sat =>
    have hrange := f.min_le_max
    have hsame : (if val < f.min then f.min else f.max) = Max.max f.min (Min.min f.max val) := by
      split <;> omega
    simp only [hsame]
    rfl
  | wrap =>
    have hpow := two_pow_bits f
    -- Both sides are integers of the field that are congruent to the result.
    have hsame : (if f.signed ∧ f.max < val % 2 ^ f.bits then val % 2 ^ f.bits - 2 ^ f.bits
        else val % 2 ^ f.bits) = f.reduce val := by
      have hreduce : f.reduce (val % 2 ^ f.bits) = f.reduce val := by
        unfold Field.reduce
        rw [Int.emod_sub_emod]
      rw [← hreduce]
      split
      · rename_i habove
        have hshift : f.reduce (val % 2 ^ f.bits - 2 ^ f.bits) = f.reduce (val % 2 ^ f.bits) := by
          unfold Field.reduce
          rw [sub_right_comm, Int.sub_emod_right]
        rw [← hshift]
        have hmin : f.min = -(2 ^ (f.bits - 1)) := by simp [Field.min, habove.1]
        exact (f.reduce_of_mem (by omega) (by omega)).symm
      · rename_i hbelow
        refine (f.reduce_of_mem ?_ ?_).symm
        · unfold Field.min
          split <;> omega
        · cases hsigned : f.signed with
          | false => simp only [Field.max, hsigned, Bool.false_eq_true, if_false]; omega
          | true => exact not_lt.mp fun h => hbelow ⟨hsigned, h⟩
    simp only [hsame]
    rfl

/-! ## Calls -/

/-- One operation on the array of bits. -/
def specOp (bits : Nat → Bool) : BitfieldOp → (Nat → Bool) × Option Int
  | .get f => (bits, some (f.value bits))
  | .set f value mode =>
    match f.stored mode value.toInt with
    | some v => (f.put bits v, some (f.value bits))
    | none => (bits, none)
  | .incrBy f incr mode =>
    match f.stored mode (f.value bits + incr.toInt) with
    | some v => (f.put bits v, some v)
    | none => (bits, none)

/-- The operations of a call on the array of bits. -/
def specOps : (Nat → Bool) → List BitfieldOp → (Nat → Bool) × List (Option Int)
  | bits, [] => (bits, [])
  | bits, op :: ops =>
    let (bits, result) := specOp bits op
    let (bits, results) := specOps bits ops
    (bits, result :: results)

theorem runOp_set (f : Field) (value : Int64) (mode : Overflow) : runOp buf (.set f value mode) =
      ((f.stored mode value.toInt).elim (buf, none) fun v =>
        (bfWrite buf f (Int64.ofInt v).toUInt64, some (bfRead buf f))) := by
  rw [runOp, bfClamp_eq]
  cases f.stored mode value.toInt with
  | none => rfl
  | some v => rfl

theorem runOp_incrBy (f : Field) (incr : Int64) (mode : Overflow) :
    runOp buf (.incrBy f incr mode) =
      ((f.stored mode ((bfRead buf f).toInt + incr.toInt)).elim (buf, none) fun v =>
        (bfWrite buf f (Int64.ofInt v).toUInt64, some (Int64.ofInt v))) := by
  rw [runOp, bfClamp_eq]
  cases f.stored mode ((bfRead buf f).toInt + incr.toInt) with
  | none => rfl
  | some v => rfl

/-- A stored integer in the array of bits. -/
theorem bitAt_bfWrite_of_stored {w : Int} (h : f.stored mode v = some w)
    (buf : Bytes) : bitAt (bfWrite buf f (Int64.ofInt w).toUInt64) = f.put (bitAt buf) w := by
  obtain ⟨hmin, hmax⟩ := Field.stored_mem h
  rw [bitAt_bfWrite, toInt_ofInt_of_mem hmin hmax]

/-- **One operation refines the same operation on the array of bits.** -/
theorem runOp_refines (op : BitfieldOp) :
    (bitAt (runOp buf op).1, (runOp buf op).2.map Int64.toInt) = specOp (bitAt buf) op := by
  cases op with
  | get f => rw [runOp, specOp, Option.map_some, toInt_bfRead]
  | set f value mode =>
    rw [runOp_set, specOp]
    cases hstored : f.stored mode value.toInt with
    | none => rfl
    | some v =>
      simp only [Option.elim_some, Option.map_some]
      rw [bitAt_bfWrite_of_stored hstored, toInt_bfRead]
  | incrBy f incr mode =>
    rw [runOp_incrBy, specOp, toInt_bfRead]
    cases hstored : f.stored mode (f.value (bitAt buf) + incr.toInt) with
    | none => rfl
    | some v =>
      obtain ⟨hmin, hmax⟩ := Field.stored_mem hstored
      simp only [Option.elim_some, Option.map_some]
      rw [bitAt_bfWrite_of_stored hstored, toInt_ofInt_of_mem hmin hmax]

/-- **A whole call refines the same call on the array of bits.** -/
theorem runOps_refines (ops : List BitfieldOp) : ∀ buf : Bytes,
    (bitAt (runOps buf ops).1, (runOps buf ops).2.map (Option.map Int64.toInt)) =
      specOps (bitAt buf) ops := by
  induction ops with
  | nil => intro buf; rfl
  | cons op ops ih =>
    intro buf
    have hop := runOp_refines buf op
    have hops := ih (runOp buf op).1
    rw [specOps, ← hop]
    simp only [← hops]
    rfl

/-- What an operation left in its field: the integer to be stored, with every other bit as it was
and the string grown no further than the field, or the string as it was. -/
def Stores (f : Field) (before after : Bytes) : Option Int → Prop
  | some v => (bfRead after f).toInt = v ∧ (∀ j, ¬ f.Covers j → bitAt after j = bitAt before j) ∧
      after.length = max before.length ((f.offset + f.bits + 7) / 8)
  | none => after = before

theorem stores_bfWrite {w : Int} (h : f.stored mode v = some w) (buf : Bytes) :
    Stores f buf (bfWrite buf f (Int64.ofInt w).toUInt64) (some w) := by
  obtain ⟨hmin, hmax⟩ := Field.stored_mem h
  refine ⟨?_, ?_, by rw [bfWrite, length_setBits, length_grow]⟩
  · rw [toInt_bfRead, bitAt_bfWrite_of_stored h, Field.value_put hmin hmax]
  · intro j hj
    rw [bitAt_bfWrite_of_stored h, Field.put, if_neg hj]

/-- The integer that is read lies in the range of the field. -/
theorem Field.value_mem (bits : Nat → Bool) : f.min ≤ f.value bits ∧ f.value bits ≤ f.max := by
  have hlt := number_lt bits f.offset f.bits
  have hpow := two_pow_bits f
  have hcast : ((2 ^ (f.bits - 1) : Nat) : Int) = 2 ^ (f.bits - 1) := by push_cast; rfl
  have hcast' : ((2 ^ f.bits : Nat) : Int) = 2 ^ f.bits := by push_cast; rfl
  unfold min max value
  cases hsigned : f.signed with
  | false =>
    simp only [Bool.false_eq_true, false_and, if_false]
    omega
  | true =>
    simp only [true_and, if_true]
    split <;> omega

/-- **`BITFIELD` is a packed array of integers.**  A field always holds an integer of its range.
`SET` stores its argument and `INCRBY` the unbounded sum, reduced, clamped or not at all as the
overflow mode says; what was stored is read back, no bit outside the field changes, and the
replies are the integer before and the integer stored. -/
theorem bitfield_packed (f : Field) (operand : Int64) (mode : Overflow) :
    let old := (bfRead buf f).toInt
    let setOp := runOp buf (.set f operand mode)
    let incrOp := runOp buf (.incrBy f operand mode)
    (f.min ≤ old ∧ old ≤ f.max) ∧
      Stores f buf setOp.1 (f.stored mode operand.toInt) ∧
      setOp.2.map Int64.toInt = (f.stored mode operand.toInt).map (fun _ => old) ∧
      Stores f buf incrOp.1 (f.stored mode (old + operand.toInt)) ∧
      incrOp.2.map Int64.toInt = f.stored mode (old + operand.toInt) := by
  refine ⟨?_, ?_, ?_, ?_, ?_⟩
  · rw [toInt_bfRead]
    exact f.value_mem _
  · rw [runOp_set]
    cases hstored : f.stored mode operand.toInt with
    | none => rfl
    | some v => exact stores_bfWrite hstored buf
  · rw [runOp_set]
    cases f.stored mode operand.toInt with
    | none => rfl
    | some v => rfl
  · rw [runOp_incrBy]
    cases hstored : f.stored mode ((bfRead buf f).toInt + operand.toInt) with
    | none => rfl
    | some v => exact stores_bfWrite hstored buf
  · rw [runOp_incrBy]
    cases hstored : f.stored mode ((bfRead buf f).toInt + operand.toInt) with
    | none => rfl
    | some v =>
      obtain ⟨hmin, hmax⟩ := Field.stored_mem hstored
      simp [toInt_ofInt_of_mem hmin hmax]

end Lux.BitField
