import Mathlib

/-!
# Byte strings, little-endian numbers and length-prefixed fields

A reader is modelled by the bytes it has not consumed yet, and an I/O error by
its kind and its text. Every writer in this file has one reader that inverts
it in front of arbitrary further bytes, and every reader that needs `n` bytes
fails with `unexpectedEof` on fewer. The file names no program: it is the
common ground of every binary format of the development.
-/

namespace ByteCodec

open List

abbrev Bytes := List UInt8

/-- The error kinds that a caller distinguishes. -/
inductive ErrorKind where
  | unexpectedEof
  | invalidData
  | invalidInput
  | other
  deriving DecidableEq, Repr

structure IoError where
  kind : ErrorKind
  message : String
  deriving DecidableEq, Repr

abbrev IoResult (α : Type) := Except IoError α

/-- The bytes of an ASCII literal. -/
def ascii (literal : String) : Bytes :=
  literal.toList.map fun c => UInt8.ofNat c.toNat

/-! ## Little-endian numbers -/

/-- The low `k` bytes of `n`, least significant first. Higher bytes are
dropped, as a narrowing cast drops them. -/
def leBytes : Nat → Nat → Bytes
  | 0, _ => []
  | k+1, n => UInt8.ofNat n :: leBytes k (n / 256)

/-- The number written by little-endian bytes. -/
def ofLeBytes : Bytes → Nat
  | [] => 0
  | b :: rest => b.toNat + 256 * ofLeBytes rest

@[simp] theorem leBytes_length (k n : Nat) : (leBytes k n).length = k := by
  induction k generalizing n with
  | zero => rfl
  | succ k ih => simp [leBytes, ih]

/-- Reading back a `k`-byte number gives it modulo `256 ^ k`. -/
theorem ofLeBytes_leBytes (k n : Nat) : ofLeBytes (leBytes k n) = n % 256 ^ k := by
  induction k generalizing n with
  | zero => simp [leBytes, ofLeBytes, Nat.mod_one]
  | succ k ih =>
    have hbyte : (UInt8.ofNat n).toNat = n % 256 := by simp
    have hpow : 256 ^ (k + 1) = 256 * 256 ^ k := by ring
    rw [leBytes, ofLeBytes, ih, hbyte, hpow, Nat.mod_mul]

theorem ofLeBytes_lt (bytes : Bytes) : ofLeBytes bytes < 256 ^ bytes.length := by
  induction bytes with
  | nil => simp [ofLeBytes]
  | cons b rest ih =>
    have hb : b.toNat < 256 := UInt8.toNat_lt b
    simp only [ofLeBytes, length_cons]
    omega

/-- Bytes are determined by their number and their value. -/
theorem leBytes_ofLeBytes {k : Nat} {bytes : Bytes} (h : bytes.length = k) :
    leBytes k (ofLeBytes bytes) = bytes := by
  subst h
  induction bytes with
  | nil => rfl
  | cons b rest ih =>
    have hb : b.toNat < 256 := UInt8.toNat_lt b
    have hhead : UInt8.ofNat (b.toNat + 256 * ofLeBytes rest) = b := by
      apply UInt8.toNat_inj.mp
      rw [UInt8.toNat_ofNat']
      omega
    have htail : (b.toNat + 256 * ofLeBytes rest) / 256 = ofLeBytes rest := by omega
    rw [ofLeBytes, length_cons, leBytes, hhead, htail, ih]

/-! ## Readers -/

/-- Consume exactly `n` bytes. -/
def readExact (n : Nat) (input : Bytes) : IoResult (Bytes × Bytes) :=
  if n ≤ input.length then
    .ok (input.take n, input.drop n)
  else
    .error ⟨.unexpectedEof, "failed to fill whole buffer"⟩

def readU32 (input : Bytes) : IoResult (Nat × Bytes) :=
  match readExact 4 input with
  | .ok (raw, rest) => .ok (ofLeBytes raw, rest)
  | .error error => .error error

/-- A four-byte length followed by that many bytes. -/
def readBytes (input : Bytes) : IoResult (Bytes × Bytes) :=
  match readU32 input with
  | .error error => .error error
  | .ok (len, rest) =>
    if len ≤ rest.length then
      .ok (rest.take len, rest.drop len)
    else
      .error ⟨.unexpectedEof, "short length-prefixed byte string"⟩

def writeBytes (value : Bytes) : Bytes :=
  leBytes 4 value.length ++ value

/-- `count` consecutive values of one reader. -/
def readMany {α : Type} (read : Bytes → IoResult (α × Bytes)) :
    Nat → Bytes → IoResult (List α × Bytes)
  | 0, input => .ok ([], input)
  | count+1, input =>
    match read input with
    | .error error => .error error
    | .ok (value, rest) =>
      match readMany read count rest with
      | .error error => .error error
      | .ok (values, rest) => .ok (value :: values, rest)

/-- Write a list of values with a writer that may refuse one of them. -/
def writeMany {α : Type} (write : α → IoResult Bytes) : List α → IoResult Bytes
  | [] => .ok []
  | value :: values =>
    match write value with
    | .error error => .error error
    | .ok out =>
      match writeMany write values with
      | .error error => .error error
      | .ok rest => .ok (out ++ rest)

variable {n : Nat} {raw input rest : Bytes}

theorem readExact_append (h : raw.length = n) (rest : Bytes) :
    readExact n (raw ++ rest) = .ok (raw, rest) := by
  subst h
  simp [readExact]

theorem readExact_short (h : input.length < n) :
    readExact n input = .error ⟨.unexpectedEof, "failed to fill whole buffer"⟩ := by
  have hnot : ¬ n ≤ input.length := by omega
  simp [readExact, hnot]

/-- What a successful exact read consumed, and what it left. -/
theorem readExact_ok (h : readExact n input = .ok (raw, rest)) :
    input = raw ++ rest ∧ raw.length = n := by
  unfold readExact at h
  split at h
  · rename_i hle
    cases h
    exact ⟨(take_append_drop n input).symm, by simp [hle]⟩
  · cases h

theorem readU32_append (n : Nat) (rest : Bytes) :
    readU32 (leBytes 4 n ++ rest) = .ok (n % 2 ^ 32, rest) := by
  have hread := readExact_append (leBytes_length 4 n) rest
  simp only [readU32, hread, ofLeBytes_leBytes]
  norm_num

/-- An exact read of a field at the head of a log that is cut after `m` bytes. -/
theorem readExact_take (h : raw.length = n) (more : Bytes) (m : Nat) :
    readExact n ((raw ++ more).take m) =
      if n ≤ m then
        .ok (raw, more.take (m - n))
      else
        .error ⟨.unexpectedEof, "failed to fill whole buffer"⟩ := by
  by_cases hm : n ≤ m
  · have hsplit : (raw ++ more).take m = raw ++ more.take (m - n) := by
      rw [take_append, take_of_length_le (by omega), h]
    rw [hsplit, readExact_append h, if_pos hm]
  · rw [readExact_short (by simp; omega), if_neg hm]

theorem readU32_take (n : Nat) (more : Bytes) (m : Nat) :
    readU32 ((leBytes 4 n ++ more).take m) =
      if 4 ≤ m then
        .ok (n % 2 ^ 32, more.take (m - 4))
      else
        .error ⟨.unexpectedEof, "failed to fill whole buffer"⟩ := by
  have hread := readExact_take (leBytes_length 4 n) more m
  by_cases hm : 4 ≤ m
  · simp only [readU32, hread, hm, if_true, ofLeBytes_leBytes]
    norm_num
  · simp [readU32, hread, hm]

theorem readU32_ok (h : readU32 input = .ok (n, rest)) :
    ∃ raw, input = raw ++ rest ∧ raw.length = 4 ∧ n = ofLeBytes raw := by
  unfold readU32 at h
  cases hread : readExact 4 input with
  | error error => simp [hread] at h
  | ok pair =>
    obtain ⟨raw, tail⟩ := pair
    simp only [hread] at h
    cases h
    obtain ⟨hsplit, hlen⟩ := readExact_ok hread
    exact ⟨raw, hsplit, hlen, rfl⟩

theorem readBytes_append {value : Bytes} (h : value.length < 2 ^ 32) (rest : Bytes) :
    readBytes (writeBytes value ++ rest) = .ok (value, rest) := by
  have hlen : value.length % 2 ^ 32 = value.length := Nat.mod_eq_of_lt h
  rw [writeBytes, append_assoc, readBytes, readU32_append, hlen]
  simp

/-- A number that is read was written in four bytes. -/
theorem readU32_eq (h : readU32 input = .ok (n, rest)) :
    input = leBytes 4 n ++ rest ∧ n < 2 ^ 32 := by
  obtain ⟨raw, rfl, hraw, rfl⟩ := readU32_ok h
  have hlt := ofLeBytes_lt raw
  rw [hraw] at hlt
  exact ⟨by rw [leBytes_ofLeBytes hraw], hlt⟩

/-- A length-prefixed field that is read was written as one. -/
theorem readBytes_ok {value : Bytes} (h : readBytes input = .ok (value, rest)) :
    input = writeBytes value ++ rest ∧ value.length < 2 ^ 32 := by
  unfold readBytes at h
  cases hlen : readU32 input with
  | error error => simp [hlen] at h
  | ok pair =>
    obtain ⟨rfl, hlt⟩ := readU32_eq hlen
    simp only [hlen] at h
    split at h
    · cases h
      have htake : (pair.2.take pair.1).length = pair.1 := by
        rw [length_take]
        omega
      rw [writeBytes, htake, append_assoc, take_append_drop]
      exact ⟨rfl, hlt⟩
    · cases h

variable {α : Type} {read : Bytes → IoResult (α × Bytes)} {write : α → Bytes} {values : List α}

/-- What a list of reads consumed was written value by value. -/
theorem readMany_ok {Fits : α → Prop} (hread : ∀ input value rest, read input = .ok (value, rest) →
      input = write value ++ rest ∧ Fits value) {count : Nat}
    (h : readMany read count input = .ok (values, rest)) :
    input = values.flatMap write ++ rest ∧ values.length = count ∧
      ∀ value ∈ values, Fits value := by
  induction count generalizing input values with
  | zero =>
    cases h
    simp
  | succ count ih =>
    simp only [readMany] at h
    cases hhead : read input with
    | error error => simp [hhead] at h
    | ok pair =>
      obtain ⟨value, mid⟩ := pair
      cases htail : readMany read count mid with
      | error error => simp [hhead, htail] at h
      | ok pair =>
        simp only [hhead, htail] at h
        cases h
        obtain ⟨rfl, hfits⟩ := hread input value mid hhead
        obtain ⟨rfl, hlen, hall⟩ := ih htail
        exact ⟨by simp, by simp [hlen], forall_mem_cons.mpr ⟨hfits, hall⟩⟩

/-- An accepted list was accepted value by value, and is the concatenation of
what was written for each. -/
theorem writeMany_ok {write : α → IoResult Bytes} {total : α → Bytes} {Fits : α → Prop}
    (hwrite : ∀ value out, write value = .ok out → out = total value ∧ Fits value)
    {out : Bytes} (h : writeMany write values = .ok out) :
    out = values.flatMap total ∧ ∀ value ∈ values, Fits value := by
  induction values generalizing out with
  | nil =>
    cases h
    simp
  | cons value values ih =>
    simp only [writeMany] at h
    cases hhead : write value with
    | error error => simp [hhead] at h
    | ok head =>
      cases htail : writeMany write values with
      | error error => simp [hhead, htail] at h
      | ok tail =>
        simp only [hhead, htail] at h
        cases h
        obtain ⟨rfl, hfit⟩ := hwrite value head hhead
        obtain ⟨rfl, hfits⟩ := ih htail
        exact ⟨by simp, by simpa using ⟨hfit, hfits⟩⟩

/-- A list of values that are all taken is written as the concatenation. -/
theorem writeMany_eq {write : α → IoResult Bytes} {total : α → Bytes}
    (h : ∀ value ∈ values, write value = .ok (total value)) :
    writeMany write values = .ok (values.flatMap total) := by
  induction values with
  | nil => rfl
  | cons value values ih =>
    have hhead := h value mem_cons_self
    have htail := ih (fun v hv => h v (mem_cons_of_mem _ hv))
    simp only [writeMany, hhead, htail, flatMap_cons]

/-- A list of values whose encodings one reader inverts is read back whole. -/
theorem readMany_append (values : List α)
    (h : ∀ value ∈ values, ∀ rest, read (write value ++ rest) = .ok (value, rest)) (rest : Bytes) :
    readMany read values.length (values.flatMap write ++ rest) = .ok (values, rest) := by
  induction values with
  | nil => rfl
  | cons value values ih =>
    have hhead := h value mem_cons_self (values.flatMap write ++ rest)
    have htail := ih (fun v hv => h v (mem_cons_of_mem _ hv))
    simp only [flatMap_cons, length_cons, readMany, append_assoc, hhead, htail]

/-- The first value that cannot be read fails the whole list. -/
theorem readMany_append_error (values : List α)
    (h : ∀ value ∈ values, ∀ rest, read (write value ++ rest) = .ok (value, rest)) {error : IoError}
    (hfail : read rest = .error error) (more : Nat) :
    readMany read (values.length + (more + 1)) (values.flatMap write ++ rest) = .error error := by
  induction values with
  | nil => simp [readMany, hfail]
  | cons value values ih =>
    have hhead := h value mem_cons_self (values.flatMap write ++ rest)
    have htail := ih (fun v hv => h v (mem_cons_of_mem _ hv))
    have hcount : (value :: values).length + (more + 1) = values.length + (more + 1) + 1 := by
      simp only [length_cons]
      omega
    rw [hcount, flatMap_cons, append_assoc, readMany, hhead]
    simp [htail]

end ByteCodec
