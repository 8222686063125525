import Lux.Readers

/-!
# Percent-decoding of query strings and form bodies

The server has two hand-written decoders, one for form bodies in `auth.rs` and one
for query strings in `http.rs`. Both run over the bytes of the text and try
`u8::from_str_radix` on the two bytes behind a percent sign. They are one loop with
two ways of looking at these bytes: the first slices the text, which panics inside a
character, the second checks the two bytes for UTF-8.

`Decodes` says what decoding should give, and `good_iff` when it does:
neither end of the slice may lie inside a character, and no percent sign may stand
before a plus sign and a digit, which `from_str_radix` takes for a number. The
encoder never produces either, so its output is always read back.
-/

namespace Lux

open ByteCodec StdText List

namespace Url

def percent : UInt8 := 37
def plus : UInt8 := 43
def minus : UInt8 := 45
def space : UInt8 := 32

/-- `char::to_digit(16)`. -/
def hexDigit? (b : UInt8) : Option Nat :=
  if 48 ≤ b ∧ b ≤ 57 then some (b.toNat - 48)
  else if 65 ≤ b ∧ b ≤ 70 then some (b.toNat - 55)
  else if 97 ≤ b ∧ b ≤ 102 then some (b.toNat - 87)
  else none

/-- The digits of a `u8`, with checked arithmetic. -/
def radix16Loop : Nat → Bytes → Option Nat
  | value, [] => some value
  | value, b :: rest => do
      let digit ← hexDigit? b
      if value * 16 + digit < 256 then radix16Loop (value * 16 + digit) rest else none

/-- `u8::from_str_radix(_, 16)`. A leading plus sign is allowed in front of digits. -/
def fromStrRadix16 : Bytes → Option UInt8
  | [] => none
  | [b] => if b = plus ∨ b = minus then none else (radix16Loop 0 [b]).map UInt8.ofNat
  | b :: rest => (radix16Loop 0 (if b = plus then rest else b :: rest)).map UInt8.ofNat

/-- What a decoder does with a percent sign: crash, keep it, or replace it and the
two bytes behind it. -/
inductive Escape where
  | panics
  | keep
  | byte (value : UInt8)
  deriving DecidableEq, Repr

/-- A byte that is no percent sign. -/
def plain (b : UInt8) : UInt8 := if b = plus then space else b

/-- The loop over the bytes. `escape` sees the two bytes behind a percent sign and
what follows them; a percent sign among the last two bytes is kept. -/
def decodeLoop (escape : UInt8 → UInt8 → Bytes → Escape) : Bytes → Option Bytes
  | [] => some []
  | [a] => some [plain a]
  | [a, b] => some [plain a, plain b]
  | a :: b :: c :: rest =>
    if a = percent then
      match escape b c rest with
      | .panics => none
      | .byte value => (decodeLoop escape rest).map (value :: ·)
      | .keep => (decodeLoop escape (b :: c :: rest)).map (percent :: ·)
    else (decodeLoop escape (b :: c :: rest)).map (plain a :: ·)

/-- `String::from_utf8_lossy`, with a parameter for what it makes of other bytes. -/
def fromUtf8Lossy (replace : Bytes → Str) (bytes : Bytes) : Str :=
  (fromUtf8? bytes).getD (replace bytes)

/-- A byte inside a character. -/
def isContinuation (b : UInt8) : Bool := 0x80 ≤ b && b < 0xC0

/-- Slicing the two bytes out of a text fails unless both ends are between
characters. -/
def strSlice (b c : UInt8) (rest : Bytes) : Option Bytes :=
  if isContinuation b || rest.head?.any isContinuation then none else some [b, c]

def radixEscape (digits : Bytes) : Escape :=
  match fromStrRadix16 digits with
  | some value => .byte value
  | none => .keep

/-- A pair is split at its first `=`; without one the value is empty. -/
def keyAndValue (pair : Str) : Str × Str := (splitOnce '=' pair).getD (pair, [])

def decodePair (decode : Str → Option Str) (pair : Str) : Option (Str × Str) := do
  let key ← decode (keyAndValue pair).1
  let value ← decode (keyAndValue pair).2
  some (key, value)

/-- The encoder's treatment of one byte. -/
def encodeByte (b : UInt8) : Str :=
  if (65 ≤ b ∧ b ≤ 90) ∨ (97 ≤ b ∧ b ≤ 122) ∨ (48 ≤ b ∧ b ≤ 57) ∨ b = 45 ∨ b = 95 ∨ b = 46 ∨ b = 126
  then [Char.ofNat b.toNat]
  else ['%', (Nat.digitChar (b.toNat / 16)).toUpper, (Nat.digitChar (b.toNat % 16)).toUpper]

end Url

open Url

namespace Auth

/-- The slice of the text is handed to `from_str_radix`. -/
def escape (b c : UInt8) (rest : Bytes) : Escape :=
  match strSlice b c rest with
  | none => .panics
  | some digits => radixEscape digits

/-- The vector `out` of `url_decode`. -/
def decodedBytes (value : Str) : Option Bytes := decodeLoop escape (utf8 value)

def urlDecode (replace : Bytes → Str) (value : Str) : Option Str :=
  (decodedBytes value).map (fromUtf8Lossy replace)

def urlEncode (value : Str) : Str := (utf8 value).flatMap encodeByte

/-- A crash of the decoder is a crash of the whole body. -/
def parseFormUrlencoded (replace : Bytes → Str) (body : Str) : Option (List (Str × Str)) :=
  ((body.splitOn '&').filter (· ≠ [])).mapM (decodePair (urlDecode replace))

end Auth

namespace Http

/-- Bytes that are no UTF-8 are replaced by the empty text, which is no number. -/
def escape (b c : UInt8) (_ : Bytes) : Escape :=
  radixEscape (if (fromUtf8? [b, c]).isSome then [b, c] else [])

/-- The vector `result` of `url_decode`. -/
def decodedBytes (s : Str) : Option Bytes := decodeLoop escape (utf8 s)

def urlDecode (replace : Bytes → Str) (s : Str) : Option Str :=
  (decodedBytes s).map (fromUtf8Lossy replace)

def parseQueryString (replace : Bytes → Str) (qs : Str) : Option (List (Str × Str)) :=
  if qs = [] then some []
  else do
    let pairs ← (qs.splitOn '&').mapM (decodePair (urlDecode replace))
    some (pairs.filter (·.1 ≠ []))

end Http

namespace Url

/-! ## What decoding should give -/

/-- Two hexadecimal digits. -/
def hexPair? (b c : UInt8) : Option UInt8 := do
  let high ← hexDigit? b
  let low ← hexDigit? c
  some (UInt8.ofNat (high * 16 + low))

/-- The bytes start with two hexadecimal digits. -/
def StartsHex (bytes : Bytes) : Prop :=
  ∃ b c rest value, bytes = b :: c :: rest ∧ hexPair? b c = some value

/-- Percent signs before two hexadecimal digits are replaced with them by a byte,
every other percent sign is kept, and plus signs are spaces. -/
inductive Decodes : Bytes → Bytes → Prop
  | nil : Decodes [] []
  | escape {b c value : UInt8} {rest out : Bytes} (h : hexPair? b c = some value)
      (hrest : Decodes rest out) : Decodes (percent :: b :: c :: rest) (value :: out)
  | percent {rest out : Bytes} (h : ¬ StartsHex rest) (hrest : Decodes rest out) :
      Decodes (percent :: rest) (percent :: out)
  | plus {rest out : Bytes} (hrest : Decodes rest out) : Decodes (plus :: rest) (space :: out)
  | other {b : UInt8} {rest out : Bytes} (hpercent : b ≠ percent) (hplus : b ≠ plus)
      (hrest : Decodes rest out) : Decodes (b :: rest) (b :: out)

/-- Both decoders return, with the same bytes, and these are the right ones. -/
def DecodesStandardly (text : Str) : Prop :=
  ∃ out, Auth.decodedBytes text = some out ∧ Http.decodedBytes text = some out ∧
    Decodes (utf8 text) out

/-- The two bytes behind a percent sign are not what the decoders take them for: a
plus sign and a digit, or a part of a character. -/
def Misread (b c : UInt8) (rest : Bytes) : Prop :=
  (b = plus ∧ (hexDigit? c).isSome) ∨ isContinuation b = true ∨ rest.head?.any isContinuation = true

def HasMisread (bytes : Bytes) : Prop :=
  ∃ before b c rest, bytes = before ++ percent :: b :: c :: rest ∧ Misread b c rest

/-! ## The two bytes behind a percent sign -/

variable {b : UInt8}

theorem hexDigit?_lt {digit : Nat} (h : hexDigit? b = some digit) :
    digit < 16 ∧ b < 128 ∧ b ≠ percent ∧ b ≠ plus ∧ isContinuation b = false := by
  revert b digit
  have hall : ∀ b : UInt8, (hexDigit? b).all (fun digit =>
      decide (digit < 16 ∧ b < 128 ∧ b ≠ percent ∧ b ≠ plus ∧ isContinuation b = false)) =
        true := by
    decide +kernel
  intro b digit h
  simpa [h] using hall b

/-- Two bytes are read as two digits or as a sign and a digit. -/
theorem fromStrRadix16_pair (b c : UInt8) :
    fromStrRadix16 [b, c] = if b = plus then (hexDigit? c).map UInt8.ofNat else hexPair? b c := by
  have hread : fromStrRadix16 [b, c] =
      (radix16Loop 0 (if b = plus then [c] else [b, c])).map UInt8.ofNat := rfl
  rw [hread]
  by_cases hplus : b = plus
  · rw [if_pos hplus, if_pos hplus]
    cases hc : hexDigit? c with
    | none => simp [radix16Loop, hc]
    | some low =>
      have hlow := (hexDigit?_lt hc).1
      simp [radix16Loop, hc, show low < 256 by omega]
  rw [if_neg hplus, if_neg hplus, hexPair?]
  cases hb : hexDigit? b with
  | none => simp [radix16Loop, hb]
  | some high =>
    have hhigh := (hexDigit?_lt hb).1
    cases hc : hexDigit? c with
    | none => simp [radix16Loop, hc]
    | some low =>
      have hlow := (hexDigit?_lt hc).1
      simp [radix16Loop, hb, hc, show high < 256 by omega, show high * 16 + low < 256 by omega]

variable {c : UInt8}

/-- Bytes below 128 are a text. -/
theorem fromUtf8?_ascii (hb : b < 128) (hc : c < 128) : (fromUtf8? [b, c]).isSome = true := by
  have hchar : ∀ b : UInt8, b < 128 → String.utf8EncodeChar (Char.ofNat b.toNat) = [b] := by
    decide +kernel
  have htext : utf8 [Char.ofNat b.toNat, Char.ofNat c.toNat] = [b, c] := by
    simp [utf8, hchar b hb, hchar c hc]
  rw [← htext, fromUtf8?_utf8]
  rfl

/-- The check for UTF-8 makes no difference: what is no text is no number either. -/
theorem http_escape_eq (b c : UInt8) (rest : Bytes) :
    Http.escape b c rest = radixEscape [b, c] := by
  unfold Http.escape
  split
  · rfl
  rename_i hutf8
  have hnone : fromStrRadix16 [b, c] = none := by
    rw [fromStrRadix16_pair]
    by_contra hsome
    obtain ⟨value, hvalue⟩ := Option.ne_none_iff_exists'.mp hsome
    split at hvalue
    · rename_i hplus
      obtain ⟨digit, hdigit, -⟩ := Option.map_eq_some_iff.mp hvalue
      exact hutf8 (fromUtf8?_ascii (hplus ▸ by decide) (hexDigit?_lt hdigit).2.1)
    · obtain ⟨high, hhigh, hvalue⟩ := Option.bind_eq_some_iff.mp hvalue
      obtain ⟨low, hlow, -⟩ := Option.bind_eq_some_iff.mp hvalue
      exact hutf8 (fromUtf8?_ascii (hexDigit?_lt hhigh).2.1 (hexDigit?_lt hlow).2.1)
  rw [radixEscape, radixEscape, hnone]
  rfl

/-- The first decoder does the same unless the slice ends inside a character. -/
theorem auth_escape_eq (b c : UInt8) (rest : Bytes) :
    Auth.escape b c rest =
      if isContinuation b || rest.head?.any isContinuation then .panics
      else radixEscape [b, c] := by
  by_cases h : (isContinuation b || rest.head?.any isContinuation) = true
  · rw [Auth.escape, strSlice, if_pos h, if_pos h]
  · rw [Auth.escape, strSlice, if_neg h, if_neg h]

/-! ## The loop -/

variable {escape : UInt8 → UInt8 → Bytes → Escape}

theorem decodeLoop_plain {a : UInt8} (h : a ≠ percent) (rest : Bytes) :
    decodeLoop escape (a :: rest) = (decodeLoop escape rest).map (plain a :: ·) := by
  cases rest with
  | nil => rfl
  | cons b rest =>
    cases rest with
    | nil => rfl
    | cons c rest => rw [decodeLoop, if_neg h]

theorem decodeLoop_percent (b c : UInt8) (rest : Bytes) :
    decodeLoop escape (percent :: b :: c :: rest) =
      match escape b c rest with
      | .panics => none
      | .byte value => (decodeLoop escape rest).map (value :: ·)
      | .keep => (decodeLoop escape (b :: c :: rest)).map (percent :: ·) := by
  rw [decodeLoop, if_pos rfl]

variable {rest : Bytes}

/-- A percent sign among the last two bytes. -/
theorem decodeLoop_short (h : rest.length < 2) :
    decodeLoop escape (percent :: rest) = (decodeLoop escape rest).map (percent :: ·) := by
  cases rest with
  | nil => rfl
  | cons b rest =>
    cases rest with
    | nil => rfl
    | cons c rest => simp at h

/-- What both decoders should do, for bytes. -/
def Good (bytes : Bytes) : Prop :=
  ∃ out, decodeLoop Auth.escape bytes = some out ∧ decodeLoop Http.escape bytes = some out ∧
    Decodes bytes out

/-- The same byte in front of all three. -/
theorem good_cons {bytes : Bytes} {value : UInt8}
    (hauth : decodeLoop Auth.escape bytes = (decodeLoop Auth.escape rest).map (value :: ·))
    (hhttp : decodeLoop Http.escape bytes = (decodeLoop Http.escape rest).map (value :: ·))
    (hdecodes : ∀ out, Decodes bytes (value :: out) ↔ Decodes rest out) :
    Good bytes ↔ Good rest := by
  unfold Good
  rw [hauth, hhttp]
  constructor
  · rintro ⟨out, ha, hh, hd⟩
    obtain ⟨out', hauth', rfl⟩ := Option.map_eq_some_iff.mp ha
    obtain ⟨out'', hhttp', heq⟩ := Option.map_eq_some_iff.mp hh
    obtain ⟨-, rfl⟩ := cons.inj heq
    exact ⟨out'', hauth', hhttp', (hdecodes out'').mp hd⟩
  · rintro ⟨out, ha, hh, hd⟩
    exact ⟨value :: out, by rw [ha]; rfl, by rw [hh]; rfl, (hdecodes out).mpr hd⟩

theorem decodes_plain {a : UInt8} (h : a ≠ percent) (rest out : Bytes) :
    Decodes (a :: rest) (plain a :: out) ↔ Decodes rest out := by
  by_cases hplus : a = plus
  · subst hplus
    constructor
    · intro hd
      cases hd with
      | plus hrest => exact hrest
    · exact .plus
  rw [plain, if_neg hplus]
  constructor
  · intro hd
    cases hd with
    | escape => exact absurd rfl h
    | percent => exact absurd rfl h
    | other _ _ hrest => exact hrest
  · exact .other h hplus

theorem decodes_kept (h : ¬ StartsHex rest) (value : UInt8) (out : Bytes) :
    Decodes (percent :: rest) (value :: out) ↔ value = percent ∧ Decodes rest out := by
  constructor
  · intro hd
    cases hd with
    | escape hpair _ => exact absurd ⟨_, _, _, _, rfl, hpair⟩ h
    | percent _ hrest => exact ⟨rfl, hrest⟩
    | other hne _ _ => exact absurd rfl hne
  · rintro ⟨rfl, hrest⟩
    exact .percent h hrest

theorem decodes_escape {value : UInt8} (h : hexPair? b c = some value) (rest out : Bytes) :
    Decodes (percent :: b :: c :: rest) (value :: out) ↔ Decodes rest out := by
  constructor
  · intro hd
    generalize hbytes : percent :: b :: c :: rest = bytes at hd
    cases hd with
    | escape _ hrest =>
      obtain ⟨-, -, -, rfl⟩ := hbytes
      exact hrest
    | percent hno _ =>
      obtain ⟨-, rfl⟩ := cons.inj hbytes
      exact absurd ⟨b, c, rest, _, rfl, h⟩ hno
    | plus => exact absurd (cons.inj hbytes).1 (by decide)
    | other hne => exact absurd (cons.inj hbytes).1.symm hne
  · exact .escape h

/-! ## Misread percent signs -/

theorem hasMisread_plain {a : UInt8} (h : a ≠ percent) (rest : Bytes) :
    HasMisread (a :: rest) ↔ HasMisread rest := by
  constructor
  · rintro ⟨before, b, c, tail, heq, hmisread⟩
    cases before with
    | nil => exact absurd (cons.inj heq).1 h
    | cons _ before => exact ⟨before, b, c, tail, (cons.inj heq).2, hmisread⟩
  · rintro ⟨before, b, c, tail, heq, hmisread⟩
    exact ⟨a :: before, b, c, tail, by rw [heq]; rfl, hmisread⟩

theorem hasMisread_percent (b c : UInt8) (rest : Bytes) :
    HasMisread (percent :: b :: c :: rest) ↔ Misread b c rest ∨ HasMisread (b :: c :: rest) := by
  constructor
  · rintro ⟨before, b', c', tail, heq, hmisread⟩
    cases before with
    | nil =>
      obtain ⟨-, rfl, rfl, rfl⟩ := heq
      exact .inl hmisread
    | cons _ before => exact .inr ⟨before, b', c', tail, (cons.inj heq).2, hmisread⟩
  · rintro (hmisread | ⟨before, b', c', tail, heq, hmisread⟩)
    · exact ⟨[], b, c, rest, rfl, hmisread⟩
    · exact ⟨percent :: before, b', c', tail, by rw [heq]; rfl, hmisread⟩

theorem not_hasMisread_short {bytes : Bytes} (h : bytes.length < 3) : ¬ HasMisread bytes := by
  rintro ⟨before, b, c, rest, rfl, -⟩
  simp at h
  omega

/-! ## When decoding is standard -/

theorem hexPair?_eq_some {value : UInt8} (h : hexPair? b c = some value) :
    ∃ high low, hexDigit? b = some high ∧ hexDigit? c = some low := by
  obtain ⟨high, hhigh, h⟩ := Option.bind_eq_some_iff.mp h
  obtain ⟨low, hlow, -⟩ := Option.bind_eq_some_iff.mp h
  exact ⟨high, low, hhigh, hlow⟩

theorem startsHex_cons : StartsHex (b :: c :: rest) ↔ ∃ value, hexPair? b c = some value := by
  constructor
  · rintro ⟨b', c', rest', value, heq, h⟩
    obtain ⟨rfl, rfl, -⟩ := heq
    exact ⟨value, h⟩
  · rintro ⟨value, h⟩
    exact ⟨b, c, rest, value, rfl, h⟩

/-- A percent sign with at least two bytes behind it. -/
theorem good_percent_iff (hkept : Good (b :: c :: rest) ↔ ¬ HasMisread (b :: c :: rest))
    (hrest : Good rest ↔ ¬ HasMisread rest) :
    Good (percent :: b :: c :: rest) ↔ ¬ HasMisread (percent :: b :: c :: rest) := by
  have hauth := @decodeLoop_percent Auth.escape b c rest
  have hhttp := @decodeLoop_percent Http.escape b c rest
  rw [auth_escape_eq] at hauth
  rw [http_escape_eq, radixEscape, fromStrRadix16_pair] at hhttp
  rw [hasMisread_percent, not_or]
  by_cases hsplit : (isContinuation b || rest.head?.any isContinuation) = true
  · -- The slice ends inside a character.
    rw [if_pos hsplit] at hauth
    have hmisread : Misread b c rest := .inr (by simpa [Bool.or_eq_true] using hsplit)
    refine iff_of_false ?_ fun h => h.1 hmisread
    rintro ⟨out, ha, -⟩
    rw [hauth] at ha
    cases ha
  rw [if_neg hsplit, radixEscape, fromStrRadix16_pair] at hauth
  by_cases hplus : b = plus
  · subst hplus
    have hnohex : ¬ StartsHex (plus :: c :: rest) := by
      rw [startsHex_cons]
      rintro ⟨value, h⟩
      obtain ⟨high, low, hhigh, -⟩ := hexPair?_eq_some h
      cases hhigh
    cases hc : hexDigit? c with
    | some digit =>
      -- The sign and the digit are replaced although they are no two digits.
      refine iff_of_false ?_ fun h => h.1 (.inl ⟨rfl, by rw [hc]; rfl⟩)
      rintro ⟨out, -, hh, hd⟩
      simp only [hhttp, hc, if_true] at hh
      obtain ⟨out', -, rfl⟩ := Option.map_eq_some_iff.mp hh
      obtain ⟨hvalue, -⟩ := (decodes_kept hnohex _ _).mp hd
      have hlt := (hexDigit?_lt hc).1
      have hnat := congrArg UInt8.toNat hvalue
      exact absurd hnat (by unfold percent; simp; omega)
    | none =>
      simp only [hc, if_true] at hauth hhttp
      rw [good_cons hauth hhttp fun out => by rw [decodes_kept hnohex]; simp, hkept]
      refine iff_and_self.mpr fun _ => ?_
      rintro (⟨-, h⟩ | h)
      · rw [hc] at h
        cases h
      · exact hsplit (by simpa [Bool.or_eq_true] using h)
  have hread : ¬ Misread b c rest := by
    rintro (⟨h, -⟩ | h)
    · exact hplus h
    · exact hsplit (by simpa [Bool.or_eq_true] using h)
  rw [if_neg hplus] at hauth hhttp
  cases hpair : hexPair? b c with
  | none =>
    simp only [hpair] at hauth hhttp
    have hnohex : ¬ StartsHex (b :: c :: rest) := by
      rw [startsHex_cons, hpair]
      simp
    rw [good_cons hauth hhttp fun out => by rw [decodes_kept hnohex]; simp, hkept]
    exact iff_and_self.mpr fun _ => hread
  | some value =>
    simp only [hpair] at hauth hhttp
    obtain ⟨high, low, hhigh, hlow⟩ := hexPair?_eq_some hpair
    rw [good_cons hauth hhttp (decodes_escape hpair rest), hrest,
      hasMisread_plain (hexDigit?_lt hhigh).2.2.1, hasMisread_plain (hexDigit?_lt hlow).2.2.1]
    exact iff_and_self.mpr fun _ => hread

theorem good_iff (bytes : Bytes) : Good bytes ↔ ¬ HasMisread bytes := by
  induction hn : bytes.length using Nat.strong_induction_on generalizing bytes with
  | _ n ih =>
    cases bytes with
    | nil => exact iff_of_true ⟨[], rfl, rfl, .nil⟩ (not_hasMisread_short (by decide))
    | cons a rest =>
      rw [length_cons] at hn
      by_cases ha : a = percent
      · subst ha
        by_cases hshort : rest.length < 2
        · have hnohex : ¬ StartsHex rest := by
            rintro ⟨b, c, rest', value, rfl, -⟩
            simp at hshort
          rw [good_cons (decodeLoop_short hshort) (decodeLoop_short hshort)
            fun out => by rw [decodes_kept hnohex]; simp, ih _ (by omega) rest rfl]
          exact iff_of_true (not_hasMisread_short (by omega))
            (not_hasMisread_short (by rw [length_cons]; omega))
        obtain ⟨b, c, rest, rfl⟩ : ∃ b c rest', rest = b :: c :: rest' := by
          cases rest with
          | nil => simp at hshort
          | cons b rest =>
            cases rest with
            | nil => simp at hshort
            | cons c rest => exact ⟨b, c, rest, rfl⟩
        simp only [length_cons] at hn
        exact good_percent_iff (ih _ (by simp only [length_cons]; omega) _ rfl)
          (ih _ (by omega) rest rfl)
      · rw [good_cons (decodeLoop_plain ha rest) (decodeLoop_plain ha rest)
          (decodes_plain ha rest), hasMisread_plain ha]
        exact ih _ (by omega) rest rfl

/-! ## Round trip -/

/-- The byte of an upper-case hexadecimal digit. -/
def hexByte (n : Nat) : UInt8 := UInt8.ofNat (Nat.digitChar n).toUpper.toNat

/-- A byte is written as itself or as a percent sign and two digits. -/
theorem utf8_encodeByte (b : UInt8) :
    (utf8 (encodeByte b) = [b] ∧ b ≠ percent ∧ b ≠ plus ∧ isContinuation b = false) ∨
    (utf8 (encodeByte b) = [percent, hexByte (b.toNat / 16), hexByte (b.toNat % 16)] ∧
      hexPair? (hexByte (b.toNat / 16)) (hexByte (b.toNat % 16)) = some b) := by
  revert b
  decide +kernel

/-- The decoder returns the bytes that were encoded, and the encoding starts no
character in the middle. -/
theorem decodeLoop_encode (bytes : Bytes) :
    decodeLoop Auth.escape (utf8 (bytes.flatMap encodeByte)) = some bytes ∧
    decodeLoop Http.escape (utf8 (bytes.flatMap encodeByte)) = some bytes ∧
    (utf8 (bytes.flatMap encodeByte)).head?.any isContinuation = false := by
  induction bytes with
  | nil => exact ⟨rfl, rfl, rfl⟩
  | cons b bytes ih =>
    obtain ⟨hauth, hhttp, hhead⟩ := ih
    have hcons : utf8 ((b :: bytes).flatMap encodeByte) =
        utf8 (encodeByte b) ++ utf8 (bytes.flatMap encodeByte) := by
      simp [utf8]
    rw [hcons]
    rcases utf8_encodeByte b with ⟨henc, hpercent, hplus, hcont⟩ | ⟨henc, hpair⟩
    · rw [henc, singleton_append, decodeLoop_plain hpercent, decodeLoop_plain hpercent, hauth,
        hhttp, plain, if_neg hplus]
      exact ⟨rfl, rfl, by simpa using hcont⟩
    · obtain ⟨high, low, hhigh, -⟩ := hexPair?_eq_some hpair
      obtain ⟨-, -, -, hplus, hcont⟩ := hexDigit?_lt hhigh
      have hradix : radixEscape [hexByte (b.toNat / 16), hexByte (b.toNat % 16)] = .byte b := by
        rw [radixEscape, fromStrRadix16_pair, if_neg hplus, hpair]
      rw [henc]
      simp only [cons_append, nil_append]
      rw [decodeLoop_percent, decodeLoop_percent, http_escape_eq, auth_escape_eq, hcont, hhead,
        hradix]
      simp only [Bool.or_self, hauth, hhttp]
      exact ⟨rfl, rfl, rfl⟩

/-- **Percent-decoding.**  Both decoders return the standard result exactly for the
texts without a misread percent sign, and they return every text from its encoding. -/
theorem percent_decoding (replace : Bytes → Str) :
    (∀ text, DecodesStandardly text ↔ ¬ HasMisread (utf8 text)) ∧
    ∀ text, Auth.urlDecode replace (Auth.urlEncode text) = some text ∧
      Http.urlDecode replace (Auth.urlEncode text) = some text := by
  refine ⟨fun text => good_iff (utf8 text), fun text => ?_⟩
  obtain ⟨hauth, hhttp, -⟩ := decodeLoop_encode (utf8 text)
  have hlossy : fromUtf8Lossy replace (utf8 text) = text := by
    rw [fromUtf8Lossy, fromUtf8?_utf8]
    rfl
  rw [Auth.urlDecode, Http.urlDecode, Auth.decodedBytes, Http.decodedBytes, Auth.urlEncode, hauth,
    hhttp, Option.map_some, hlossy]
  exact ⟨rfl, rfl⟩

/-- Decoding one pair. -/
def StandardPair (pair : Str) : Prop :=
  DecodesStandardly (keyAndValue pair).1 ∧ DecodesStandardly (keyAndValue pair).2

theorem StandardPair.exists_eq {pair : Str} (h : StandardPair pair) (replace : Bytes → Str) :
    ∃ out, decodePair (Auth.urlDecode replace) pair = some out ∧
      decodePair (Http.urlDecode replace) pair = some out := by
  obtain ⟨⟨key, hkey, hkey', -⟩, ⟨value, hvalue, hvalue', -⟩⟩ := h
  refine ⟨(fromUtf8Lossy replace key, fromUtf8Lossy replace value), ?_, ?_⟩
  · simp [decodePair, Auth.urlDecode, hkey, hvalue]
  · simp [decodePair, Http.urlDecode, hkey', hvalue']

/-- A form body and a query string are read alike, but for the pairs without a key. -/
theorem parse_pairs (replace : Bytes → Str) {body : Str}
    (h : ∀ pair ∈ body.splitOn '&', StandardPair pair) :
    ∃ pairs, Auth.parseFormUrlencoded replace body = some pairs ∧
      Http.parseQueryString replace body = some (pairs.filter (·.1 ≠ [])) := by
  have hpieces : ∀ pieces : List Str, (∀ pair ∈ pieces, StandardPair pair) →
      ∃ pairs every, (pieces.filter (· ≠ [])).mapM (decodePair (Auth.urlDecode replace)) =
          some pairs ∧ pieces.mapM (decodePair (Http.urlDecode replace)) = some every ∧
        every.filter (·.1 ≠ []) = pairs.filter (·.1 ≠ []) := by
    intro pieces hall
    induction pieces with
    | nil => exact ⟨[], [], rfl, rfl, rfl⟩
    | cons pair pieces ih =>
      obtain ⟨pairs, every, hpairs, hevery, heq⟩ := ih fun p hp => hall p (mem_cons_of_mem _ hp)
      by_cases hnil : pair = []
      · -- One decoder skips the empty pair, the other finds no key in it.
        subst hnil
        refine ⟨pairs, ([], []) :: every, ?_, ?_, ?_⟩
        · rw [filter_cons_of_neg (by simp), hpairs]
        · rw [mapM_cons, hevery]
          rfl
        · rw [filter_cons_of_neg (by simp), heq]
      · obtain ⟨out, hauth, hhttp⟩ := (hall pair mem_cons_self).exists_eq replace
        refine ⟨out :: pairs, out :: every, ?_, ?_, ?_⟩
        · rw [filter_cons_of_pos (by simpa using hnil), mapM_cons, hauth, hpairs]
          rfl
        · rw [mapM_cons, hhttp, hevery]
          rfl
        · rw [filter_cons, filter_cons, heq]
  obtain ⟨pairs, every, hpairs, hevery, heq⟩ := hpieces _ h
  refine ⟨pairs, hpairs, ?_⟩
  by_cases hempty : body = []
  · subst hempty
    have hnone : pairs = [] := (Option.some.inj hpairs).symm
    rw [Http.parseQueryString, hnone]
    rfl
  · rw [Http.parseQueryString, if_neg hempty, hevery, ← heq]
    rfl

/-- A percent sign before an ASCII and another character crashes the first decoder,
and one before a plus sign and a digit is replaced by both. -/
theorem misread_examples :
    Auth.decodedBytes (str "%aé") = none ∧
    Http.decodedBytes (str "%+5") = some [5] ∧ Auth.decodedBytes (str "%+5") = some [5] ∧
    Decodes (utf8 (str "%+5")) (ascii "% 5") := by
  refine ⟨by decide +kernel, by decide +kernel, by decide +kernel, ?_⟩
  have hno : ¬ StartsHex (ascii "+5") := by
    rw [show ascii "+5" = [43, 53] by decide, startsHex_cons, show hexPair? 43 53 = none by decide]
    simp
  have htail : Decodes (ascii "+5") (ascii " 5") := .plus (.other (by decide) (by decide) .nil)
  exact .percent hno htail

end Url

end Lux
