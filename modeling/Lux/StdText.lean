import Mathlib

/-!
# Text and numbers of the standard library

The string and number functions a query engine leans on: white space, trimming, case folding for
keyword tests, splitting at a separator, and the decimal readers and printers of 64-bit integers
and floats. Texts are lists of Unicode scalar values, so the order of two texts (bytewise in
UTF-8) is the lexicographic order of the lists. Floats are the IEEE 754 values of
`Float.Model`; a decimal numeral denotes the double nearest to it, ties to even.
-/

namespace StdText

open List

/-- A string, as its sequence of Unicode scalar values. -/
abbrev Str := List Char

instance lawfulBEqStr : LawfulBEq Str := inferInstance

/-- A string literal as a `Str`. -/
def str (s : String) : Str := s.toList

/-! ### White space -/

/-- The Unicode property `White_Space`. -/
def isWhitespace (c : Char) : Bool :=
  (9 ≤ c.toNat && c.toNat ≤ 13) || c.toNat == 0x20 || c.toNat == 0x85 || c.toNat == 0xA0 ||
    c.toNat == 0x1680 || (0x2000 ≤ c.toNat && c.toNat ≤ 0x200A) || c.toNat == 0x2028 ||
    c.toNat == 0x2029 || c.toNat == 0x202F || c.toNat == 0x205F || c.toNat == 0x3000

/-- `str::trim`: the text without the white space at its two ends. -/
def trim (s : Str) : Str := (s.dropWhile isWhitespace).rdropWhile isWhitespace

@[simp] theorem trim_nil : trim [] = [] := rfl

/-- A text that begins and ends with something else than white space is its own trimming. -/
theorem trim_eq_self {s : Str} (hhead : ∀ c ∈ s.head?, isWhitespace c = false)
    (hlast : ∀ c ∈ s.getLast?, isWhitespace c = false) : trim s = s := by
  have hdrop : s.dropWhile isWhitespace = s := by
    cases s with
    | nil => rfl
    | cons c cs => exact dropWhile_cons_of_neg (by simpa using hhead c rfl)
  rw [trim, hdrop, rdropWhile_eq_self_iff]
  intro hne hws
  have hmem : s.getLast hne ∈ s.getLast? := by rw [getLast?_eq_some_getLast hne]; rfl
  rw [hlast _ hmem] at hws
  exact Bool.false_ne_true hws

/-! ### Case -/

/-- ASCII lower case of one character; every other character is left alone. -/
def asciiLower (c : Char) : Char :=
  if 'A' ≤ c ∧ c ≤ 'Z' then Char.ofNat (c.toNat + 32) else c

/-- `str::eq_ignore_ascii_case`. -/
def eqIgnoreAsciiCase (a b : Str) : Bool := a.map asciiLower == b.map asciiLower

/-- The upper case of one character, as far as it consists of ASCII letters: the ASCII letters
themselves and the few other characters whose full upper-case mapping is one or more of them.
Every other character is left alone, which keeps it different from each ASCII text. -/
def upperChar (c : Char) : Str :=
  if 'a' ≤ c ∧ c ≤ 'z' then [Char.ofNat (c.toNat - 32)]
  else match c.toNat with
    | 0x131 => ['I']
    | 0x17F => ['S']
    | 0xDF => ['S', 'S']
    | 0xFB00 => ['F', 'F']
    | 0xFB01 => ['F', 'I']
    | 0xFB02 => ['F', 'L']
    | 0xFB03 => ['F', 'F', 'I']
    | 0xFB04 => ['F', 'F', 'L']
    | 0xFB05 => ['S', 'T']
    | 0xFB06 => ['S', 'T']
    | _ => [c]

/-- `str::to_uppercase`, for comparison with ASCII keywords. -/
def toUppercase (s : Str) : Str := s.flatMap upperChar

theorem upperChar_asciiLower (c : Char) : upperChar (asciiLower c) = upperChar c := by
  have hletters : ∀ n < 26,
      upperChar (Char.ofNat (65 + n + 32)) = upperChar (Char.ofNat (65 + n)) := by
    decide
  rw [asciiLower]
  split
  · next h =>
      have hlow : 65 ≤ c.toNat := h.1
      have hhigh : c.toNat ≤ 90 := h.2
      have hletter := hletters (c.toNat - 65) (by omega)
      rw [Nat.add_sub_cancel' hlow, Char.ofNat_toNat] at hletter
      exact hletter
  · rfl

/-- Texts that differ in the case of ASCII letters only have the same upper case. -/
theorem toUppercase_eq_of_eqIgnoreAsciiCase {a b : Str} (h : eqIgnoreAsciiCase a b = true) :
    toUppercase a = toUppercase b := by
  have hlower : ∀ s : Str, toUppercase (s.map asciiLower) = toUppercase s := by
    intro s
    rw [toUppercase, flatMap_map]
    simp only [upperChar_asciiLower]
    rfl
  rw [← hlower a, ← hlower b, eq_of_beq h]

/-! ### Splitting -/

/-- `str::split_once` at a character. -/
def splitOnce (sep : Char) (s : Str) : Option (Str × Str) :=
  match s.dropWhile (· != sep) with
  | [] => none
  | _ :: rest => some (s.takeWhile (· != sep), rest)

/-- What follows the last occurrence of a character, or the whole text if there is none. -/
def afterLast (sep : Char) (s : Str) : Str := s.rtakeWhile (· != sep)

theorem afterLast_eq_self {sep : Char} {s : Str} (h : sep ∉ s) : afterLast sep s = s := by
  rw [afterLast, rtakeWhile_eq_self_iff]
  intro c hc
  simpa using fun heq : c = sep => h (heq ▸ hc)

/-- `str::replace` of one character by a text. -/
def replaceChar (c : Char) (new : Str) (s : Str) : Str :=
  s.flatMap fun d => if d = c then new else [d]

/-- `join` of a list of texts. -/
def join (sep : Str) : List Str → Str
  | [] => []
  | [a] => a
  | a :: b :: rest => a ++ sep ++ join sep (b :: rest)

/-! ### Integers -/

/-- The value of one decimal digit. -/
def digit? (c : Char) : Option Nat :=
  if '0' ≤ c ∧ c ≤ '9' then some (c.toNat - 48) else none

/-- The value of a text made of decimal digits only. -/
def digits? (s : Str) : Option Nat :=
  s.foldl (fun acc c => acc.bind fun n => (digit? c).map (10 * n + ·)) (some 0)

/-- A leading sign, and what follows it. -/
def signed (s : Str) : Bool × Str :=
  match s with
  | '-' :: rest => (true, rest)
  | '+' :: rest => (false, rest)
  | _ => (false, s)

/-- `str::parse::<i64>`. -/
def parseI64 (s : Str) : Option Int :=
  let (neg, body) := signed s
  if body = [] then none
  else match digits? body with
    | none => none
    | some n =>
      let value : Int := if neg then -(n : Int) else n
      if -(2 ^ 63) ≤ value ∧ value < 2 ^ 63 then some value else none

/-- The decimal digits of a natural number. -/
def showNat (n : Nat) : Str := Nat.toDigits 10 n

/-- `str::parse::<usize>`, on a 64-bit machine. -/
def parseUsize (s : Str) : Option Nat :=
  let body := match s with
    | '+' :: rest => rest
    | _ => s
  if body = [] then none
  else (digits? body).bind fun n => if n < 2 ^ 64 then some n else none

/-- The digits of a number are read back as it. -/
theorem digits?_showNat (n : Nat) : digits? (showNat n) = some n := by
  -- On digits the reader is the fold of the library, started from any number.
  have hfold : ∀ (s : Str), (∀ c ∈ s, c.isDigit) → ∀ acc : Nat,
      s.foldl (fun acc c => acc.bind fun n => (digit? c).map (10 * n + ·)) (some acc) =
        some (Nat.ofDigitChars 10 s acc) := by
    intro s
    induction s with
    | nil => intro _ acc; rfl
    | cons c s ih =>
      intro hdigits acc
      have hc : digit? c = some (c.toNat - 48) := by
        have h := hdigits c mem_cons_self
        simp only [Char.isDigit, Bool.and_eq_true, decide_eq_true_eq] at h
        rw [digit?, if_pos ⟨h.1, h.2⟩]
      rw [foldl_cons, hc]
      exact ih (fun d hd => hdigits d (mem_cons_of_mem c hd)) _
  have hall : ∀ c ∈ showNat n, c.isDigit := fun c hc =>
    Nat.isDigit_of_mem_toDigits (by omega) le_rfl hc
  rw [digits?, hfold _ hall 0, showNat, Nat.ofDigitChars_toDigits (by omega) le_rfl]

/-- A digit is none of the characters below it. -/
theorem ne_of_mem_showNat {n : Nat} {c d : Char} (h : c ∈ showNat n) (hd : d < '0') : c ≠ d := by
  have hdigit := Nat.isDigit_of_mem_toDigits (by omega) le_rfl h
  simp only [Char.isDigit, Bool.and_eq_true, decide_eq_true_eq] at hdigit
  rintro rfl
  exact absurd hdigit.1 (not_le.mpr hd)

theorem parseUsize_showNat {n : Nat} (h : n < 2 ^ 64) : parseUsize (showNat n) = some n := by
  have hne : showNat n ≠ [] := Nat.toDigits_ne_nil
  have hsign : (match showNat n with | '+' :: rest => rest | _ => showNat n) = showNat n := by
    cases hshow : showNat n with
    | nil => rfl
    | cons c rest =>
      have hc : c ≠ '+' := ne_of_mem_showNat (n := n) (by rw [hshow]; simp) (by decide)
      split
      · rename_i heq
        injection heq with heq
        exact absurd heq hc
      · rfl
  simp only [parseUsize, hsign, hne, if_false, digits?_showNat, Option.bind_some, h, if_true]

/-- `i64::to_string`. -/
def showInt (i : Int) : Str :=
  if i < 0 then '-' :: showNat i.natAbs else showNat i.natAbs

/-- The digits of a number have no sign in front. -/
theorem signed_showNat (n : Nat) : signed (showNat n) = (false, showNat n) := by
  cases hshow : showNat n with
  | nil => rfl
  | cons c rest =>
    have hmem : c ∈ showNat n := by rw [hshow]; exact mem_cons_self
    have hminus : c ≠ '-' := ne_of_mem_showNat hmem (by decide)
    have hplus : c ≠ '+' := ne_of_mem_showNat hmem (by decide)
    unfold signed
    split <;> simp_all

/-- An integer in range is read back as it. -/
theorem parseI64_showInt {i : Int} (hmin : -(2 ^ 63) ≤ i) (hmax : i < 2 ^ 63) :
    parseI64 (showInt i) = some i := by
  have hne : showNat i.natAbs ≠ [] := Nat.toDigits_ne_nil
  by_cases hneg : i < 0
  · have habs : -(i.natAbs : Int) = i := by omega
    have hsigned : signed (showInt i) = (true, showNat i.natAbs) := by
      rw [showInt, if_pos hneg]
      rfl
    simp only [parseI64, hsigned, hne, if_false, digits?_showNat, if_true, habs, hmin, hmax,
      and_self]
  · have habs : (i.natAbs : Int) = i := by omega
    have hsigned : signed (showInt i) = (false, showNat i.natAbs) := by
      rw [showInt, if_neg hneg, signed_showNat]
    simp only [parseI64, hsigned, hne, if_false, digits?_showNat, Bool.false_eq_true, habs, hmin,
      hmax, and_self, if_true]

/-! ### Floats -/

/-- The 64-bit floats. -/
abbrev F64 := Float.Model

/-- The 32-bit floats. -/
abbrev F32 := Float32.Model

/-- The exponent part of a decimal numeral: nothing, or `e` with a signed run of digits. -/
def exponent? (s : Str) : Option Int :=
  match s with
  | [] => some 0
  | c :: rest =>
    if c = 'e' ∨ c = 'E' then
      let (neg, body) := signed rest
      if body = [] then none else (digits? body).map fun n => if neg then -(n : Int) else n
    else none

/-- The decimal value `m · 10 ^ e` written by an unsigned numeral: digits with an optional point
among, before or after them, and an optional exponent. -/
def decimal? (s : Str) : Option (Nat × Int) :=
  let whole := s.takeWhile Char.isDigit
  let rest := s.dropWhile Char.isDigit
  let (frac, tail) := match rest with
    | '.' :: more => (more.takeWhile Char.isDigit, more.dropWhile Char.isDigit)
    | _ => ([], rest)
  if whole ++ frac = [] then none
  else match digits? (whole ++ frac), exponent? tail with
    | some m, some e => some (m, e - frac.length)
    | _, _ => none

/-- A decimal float literal: a sign, and a numeral, an infinity or `nan`, given the number format
by its values. -/
def parseFloat {F : Type} (ofScientific : Nat → Int → F) (infinity nan : F) (neg : F → F)
    (s : Str) : Option F :=
  let (minus, body) := signed s
  let magnitude : Option F :=
    if eqIgnoreAsciiCase body (str "inf") || eqIgnoreAsciiCase body (str "infinity") then
      some infinity
    else if eqIgnoreAsciiCase body (str "nan") then some nan
    else (decimal? body).map fun (m, e) => ofScientific m e
  magnitude.map fun x => if minus then neg x else x

/-- `str::parse::<f64>`. -/
def parseF64 : Str → Option F64 :=
  parseFloat Float.Model.ofScientific (Float.Model.pack (.infinity .positive))
    (Float.Model.pack .notANumber) Float.Model.neg

/-- `str::parse::<f32>`. -/
def parseF32 : Str → Option F32 :=
  parseFloat Float32.Model.ofScientific (Float32.Model.pack (.infinity .positive))
    (Float32.Model.pack .notANumber) Float32.Model.neg

/-- `f64::EPSILON`, the distance from `1` to the next double. -/
def epsilon : F64 := Float.Model.ofBits 0x3CB0000000000000

/-- The text of the decimal `n · 10 ^ -scale`, without trailing zeros behind the point. -/
def showDecimal (n scale : Nat) : Str :=
  let whole := n / 10 ^ scale
  let frac := n % 10 ^ scale
  if frac = 0 then showNat whole
  else
    let digits := showNat frac
    let padded := List.replicate (scale - digits.length) '0' ++ digits
    showNat whole ++ '.' :: padded.rdropWhile (· == '0')

/-- The shortest decimal next to `n · 10 ^ -scale` that reads back as the same float: for growing
numbers of digits, the nearer of the two neighbours of `n` with that many digits, if it reads
back. The exact value always does. -/
def shortest (readsBack : Nat → Bool) (n : Nat) : Nat :=
  let len := (showNat n).length
  let candidate (p : Nat) : Option Nat :=
    let step := 10 ^ (len - p)
    let low := n / step * step
    let high := low + step
    if readsBack low && (n - low ≤ high - n || !readsBack high) then some low
    else if readsBack high then some high
    else none
  ((List.range 17).findSome? fun p => candidate (p + 1)).getD n

/-- The text of the positive float `m · 2 ^ e`, given the reader of its format. -/
def showPositive (readsBack : Nat → Int → Bool) (m : Nat) (e : Int) : Str :=
  let (n, scale) := if 0 ≤ e then (m * 2 ^ e.toNat, 0) else (m * 5 ^ (-e).toNat, (-e).toNat)
  showDecimal (shortest (readsBack · (-(scale : Int))) n) scale

/-- The text of a float: the shortest decimal that reads back as it, never in exponent form. -/
def showFloat (readsBack : Nat → Int → Bool) : Float.Model.UnpackedFloat → Str
  | .notANumber => str "NaN"
  | .infinity .positive => str "inf"
  | .infinity .negative => str "-inf"
  | .zero .positive => str "0"
  | .zero .negative => str "-0"
  | .finite .positive m e _ => showPositive readsBack m e
  | .finite .negative m e _ => '-' :: showPositive readsBack m e

/-- `f64::to_string`. -/
def showF64 (x : F64) : Str :=
  showFloat (fun m e => (Float.Model.ofScientific m e).beq x.abs) x.unpack

/-- `f32::to_string`. -/
def showF32 (x : F32) : Str :=
  showFloat (fun m e => (Float32.Model.ofScientific m e).beq x.abs) x.unpack

end StdText
