import Lux.ByteCodec
import Lux.StdText

/-!
# Readers that invert writers

A reader consumes a part of its input and returns the rest; readers compose as a
state monad over I/O results. `Inverts read write Fits` says both halves of a
round trip: every value that fits is read back from what was written for it, in
front of any further bytes, and whatever is read fits. The second half is what
shows that a value over a limit cannot come back, however its length field was
narrowed when it was written.

The rules follow the ways formats are put together: a pair of fields, a counted
list, and a field seen through a bijection. Texts are written in UTF-8.
-/

namespace ByteCodec

open StdText List

/-- A reader, with what is left of the input as its state. -/
abbrev Reader (α : Type) := StateT Bytes (Except IoError) α

/-- A reader that fails. -/
def refuse {α : Type} (kind : ErrorKind) (message : String) : Reader α :=
  fun _ => .error ⟨kind, message⟩

/-- Two fields in a row. -/
def readPair {α β : Type} (first : Reader α) (second : Reader β) : Reader (α × β) := do
  let a ← first
  let b ← second
  pure (a, b)

def writePair {α β : Type} (first : α → Bytes) (second : β → Bytes) (value : α × β) : Bytes :=
  first value.1 ++ second value.2

/-- A counted list. -/
def readList {α : Type} (count : Reader Nat) (item : Reader α) : Reader (List α) := do
  let n ← count
  readMany item n

def writeList {α : Type} (item : α → Bytes) (values : List α) : Bytes :=
  leBytes 4 values.length ++ values.flatMap item

/-- The reader reads the value from exactly these bytes. -/
def Reads {α : Type} (read : Reader α) (raw : Bytes) (value : α) : Prop :=
  ∀ rest, read (raw ++ rest) = .ok (value, rest)

/-- Everything the reader returns has the property. -/
def Yields {α : Type} (read : Reader α) (P : α → Prop) : Prop :=
  ∀ input value rest, read input = .ok (value, rest) → P value

/-! ### Sequences of readers -/

section Rules

variable {α β : Type} {first : Reader α} {next : α → Reader β}

/-- What a sequence of two readers did when it succeeded. -/
theorem bind_ok {input rest : Bytes} {b : β} :
    (first >>= next) input = .ok (b, rest) ↔
      ∃ a mid, first input = .ok (a, mid) ∧ next a mid = .ok (b, rest) := by
  show (first input >>= fun p => next p.1 p.2) = .ok (b, rest) ↔ _
  cases first input with
  | error error => simp [bind, Except.bind]
  | ok pair =>
    obtain ⟨a, mid⟩ := pair
    simp [bind, Except.bind]

theorem bind_of_ok {input mid : Bytes} {a : α} (h : first input = .ok (a, mid)) :
    (first >>= next) input = next a mid := by
  show (first input >>= fun p => next p.1 p.2) = _
  rw [h]
  rfl

theorem Reads.pure (value : α) : Reads (pure value : Reader α) [] value :=
  fun _ => rfl

theorem Reads.bind {raw raw' : Bytes} {a : α} {b : β} (hfirst : Reads first raw a)
    (hnext : Reads (next a) raw' b) : Reads (first >>= next) (raw ++ raw') b := by
  intro rest
  rw [append_assoc, bind_of_ok (hfirst _)]
  exact hnext rest

theorem Reads.map {read : Reader α} {raw : Bytes} {a : α} (h : Reads read raw a) (f : α → β) :
    Reads (f <$> read) raw (f a) := by
  intro rest
  show (read (raw ++ rest) >>= fun p => Pure.pure (f p.1, p.2)) = _
  rw [h rest]
  rfl

variable {P : α → Prop}

theorem Yields.pure {value : α} (h : P value) : Yields (pure value : Reader α) P := by
  intro input a rest hread
  injection hread with hread
  injection hread with hvalue
  rwa [← hvalue]

theorem Yields.bind {Q : β → Prop} (hfirst : Yields first P)
    (hnext : ∀ a, P a → Yields (next a) Q) :
    Yields (first >>= next) Q := by
  intro input b rest h
  obtain ⟨a, mid, ha, hb⟩ := bind_ok.mp h
  exact hnext a (hfirst input a mid ha) mid b rest hb

theorem Yields.map {read : Reader α} {Q : β → Prop} {f : α → β} (h : Yields read P)
    (hf : ∀ a, P a → Q (f a)) : Yields (f <$> read) Q := by
  have hbind : Yields (read >>= fun a => Pure.pure (f a)) Q :=
    h.bind fun a ha => Yields.pure (hf a ha)
  exact hbind

theorem Yields.refuse {kind : ErrorKind} {message : String} :
    Yields (refuse kind message : Reader α) P := by
  intro input value rest h
  cases h

theorem Yields.ite {c : Prop} [Decidable c] {second : Reader α} (hfirst : c → Yields first P)
    (hsecond : ¬ c → Yields second P) : Yields (if c then first else second) P := by
  by_cases hc : c
  · rw [if_pos hc]
    exact hfirst hc
  · rw [if_neg hc]
    exact hsecond hc

/-- A list has the length its count asked for, and every item what the item reader yields. -/
theorem Yields.many {item : Reader α} (h : Yields item P) (n : Nat) :
    Yields (readMany item n) fun values => values.length = n ∧ ∀ a ∈ values, P a := by
  induction n with
  | zero =>
    intro input values rest hread
    cases hread
    simp
  | succ n ih =>
    intro input values rest hread
    simp only [readMany] at hread
    cases hhead : item input with
    | error error => simp [hhead] at hread
    | ok pair =>
      obtain ⟨a, mid⟩ := pair
      cases htail : readMany item n mid with
      | error error => simp [hhead, htail] at hread
      | ok pair =>
        obtain ⟨others, last⟩ := pair
        simp only [hhead, htail] at hread
        injection hread with hread
        injection hread with hvalues
        subst hvalues
        have hothers := ih mid others last htail
        have ha := h input a mid hhead
        simpa [hothers.1, ha] using hothers.2

end Rules

/-! ### Inverting a writer -/

/-- The reader undoes the writer on the values that fit, and returns no others. -/
structure Inverts {α : Type} (read : Reader α) (write : α → Bytes) (Fits : α → Prop) :
    Prop where
  reads : ∀ value, Fits value → Reads read (write value) value
  yields : Yields read Fits

namespace Inverts

variable {α β : Type} {read : Reader α} {write : α → Bytes} {Fits : α → Prop}
  {read' : Reader β} {write' : β → Bytes} {Fits' : β → Prop}

theorem pair (h : Inverts read write Fits) (h' : Inverts read' write' Fits') :
    Inverts (readPair read read') (writePair write write')
      fun value => Fits value.1 ∧ Fits' value.2 where
  reads value hfits := by
    have hsecond := (h'.reads value.2 hfits.2).map fun b => (value.1, b)
    exact (h.reads value.1 hfits.1).bind hsecond
  yields := h.yields.bind fun _ ha => h'.yields.bind fun _ hb => Yields.pure ⟨ha, hb⟩

/-- A counted list, with a count reader that takes the counts of `FitsCount`. -/
theorem list {count : Reader Nat} {FitsCount : Nat → Prop}
    (hcount : Inverts count (leBytes 4) FitsCount) (h : Inverts read write Fits) :
    Inverts (readList count read) (writeList write)
      fun values => FitsCount values.length ∧ ∀ value ∈ values, Fits value where
  reads values hfits := by
    apply (hcount.reads values.length hfits.1).bind
    intro rest
    exact readMany_append values (fun value hv => h.reads value (hfits.2 value hv)) rest
  yields := by
    refine hcount.yields.bind fun n hn => ?_
    intro input values rest hread
    obtain ⟨hlen, hall⟩ := h.yields.many n input values rest hread
    exact ⟨hlen ▸ hn, hall⟩

/-- A field seen through a bijection. -/
theorem map (h : Inverts read write Fits) {f : α → β} {g : β → α} (hgf : ∀ a, g (f a) = a)
    (hfg : ∀ b, f (g b) = b) :
    Inverts (f <$> read) (fun b => write (g b)) fun b => Fits (g b) where
  reads b hfits := by
    have hmap := (h.reads (g b) hfits).map f
    rwa [hfg] at hmap
  yields := h.yields.map fun a ha => by rwa [hgf]

/-- A field that is refused when it is bad. -/
theorem guarded (h : Inverts read write Fits) {Bad : α → Prop} [DecidablePred Bad]
    (kind : ErrorKind) (message : String) :
    Inverts (read >>= fun a => if Bad a then refuse kind message else pure a) write
      fun a => Fits a ∧ ¬ Bad a where
  reads value hfits := by
    intro rest
    rw [bind_of_ok (h.reads value hfits.1 rest), if_neg hfits.2]
    rfl
  yields := h.yields.bind fun _ ha =>
    Yields.ite (fun _ => Yields.refuse) fun hgood => Yields.pure ⟨ha, hgood⟩

/-- Another description of what fits. -/
theorem congr (h : Inverts read write Fits) {Fits'' : α → Prop} (hiff : ∀ a, Fits a ↔ Fits'' a) :
    Inverts read write Fits'' where
  reads value hfits := h.reads value ((hiff value).mpr hfits)
  yields input value rest hread := (hiff value).mp (h.yields input value rest hread)

end Inverts

/-! ### What is written short -/

/-- Every value that is written in less than `bound` bytes fits. -/
def ShortFits {α : Type} (bound : Nat) (write : α → Bytes) (Fits : α → Prop) : Prop :=
  ∀ value, (write value).length < bound → Fits value

section Short

variable {α β : Type} {bound : Nat} {write : α → Bytes} {Fits : α → Prop} {write' : β → Bytes}
  {Fits' : β → Prop}

theorem writeList_length (write : α → Bytes) (values : List α) :
    (writeList write values).length = 4 + (values.map fun value => (write value).length).sum := by
  simp [writeList]

theorem item_le_writeList {values : List α} {value : α} (h : value ∈ values) :
    (write value).length ≤ (writeList write values).length := by
  have hle : (write value).length ≤ (values.map fun value => (write value).length).sum :=
    single_le_sum (fun _ _ => Nat.zero_le _) _
      (mem_map_of_mem (f := fun value => (write value).length) h)
  rw [writeList_length]
  omega

/-- Items of at least one byte are no more than the bytes of their list. -/
theorem length_le_writeList (h : ∀ value, 0 < (write value).length) (values : List α) :
    values.length ≤ (writeList write values).length := by
  rw [writeList_length]
  induction values with
  | nil => simp
  | cons value values ih =>
    have hvalue := h value
    simp only [length_cons, map_cons, sum_cons]
    omega

theorem ShortFits.pair (h : ShortFits bound write Fits) (h' : ShortFits bound write' Fits') :
    ShortFits bound (writePair write write') fun value => Fits value.1 ∧ Fits' value.2 := by
  intro value hshort
  rw [writePair, length_append] at hshort
  exact ⟨h value.1 (by omega), h' value.2 (by omega)⟩

theorem ShortFits.list (h : ShortFits bound write Fits) (hpos : ∀ value, 0 < (write value).length) :
    ShortFits bound (writeList write) fun values =>
      values.length < bound ∧ ∀ value ∈ values, Fits value := by
  intro values hshort
  refine ⟨lt_of_le_of_lt (length_le_writeList hpos values) hshort, fun value hvalue => ?_⟩
  exact h value (lt_of_le_of_lt (item_le_writeList hvalue) hshort)

theorem shortFits_writeBytes : ShortFits bound writeBytes fun raw => raw.length < bound := by
  intro raw hshort
  rw [writeBytes, length_append] at hshort
  omega

end Short

/-! ### Numbers -/

/-- Exactly `n` bytes. -/
theorem inverts_readExact (n : Nat) : Inverts (readExact n) id fun raw => raw.length = n where
  reads _ hlen := readExact_append hlen
  yields _ _ _ hread := (readExact_ok hread).2

/-- A four-byte count without a limit of its own. -/
theorem inverts_readU32 : Inverts readU32 (leBytes 4) (· < 2 ^ 32) where
  reads n hn := by
    intro rest
    rw [readU32_append, Nat.mod_eq_of_lt hn]
  yields input n rest hread := by
    obtain ⟨raw, -, hraw, rfl⟩ := readU32_ok hread
    have hlt := ofLeBytes_lt raw
    rw [hraw] at hlt
    exact hlt

def writeU64 (value : UInt64) : Bytes := leBytes 8 value.toNat

def readU64 : Reader UInt64 := do
  let raw ← readExact 8
  pure (UInt64.ofNat (ofLeBytes raw))

def writeI64 (value : Int64) : Bytes := writeU64 value.toUInt64

def readI64 : Reader Int64 := UInt64.toInt64 <$> readU64

/-- Four raw bytes as a number. -/
def writeWord (value : UInt32) : Bytes := leBytes 4 value.toNat

def readWord : Reader UInt32 := do
  let raw ← readExact 4
  pure (UInt32.ofNat (ofLeBytes raw))

/-- Every 64-bit number is read back. -/
theorem inverts_readU64 : Inverts readU64 writeU64 fun _ => True where
  reads value _ := by
    have hback : UInt64.ofNat (ofLeBytes (leBytes 8 value.toNat)) = value := by
      have hlt : value.toNat < 256 ^ 8 := UInt64.toNat_lt value
      rw [ofLeBytes_leBytes, Nat.mod_eq_of_lt hlt, UInt64.ofNat_toNat]
    have hread := ((inverts_readExact 8).reads _ (leBytes_length 8 value.toNat)).map
      fun raw => UInt64.ofNat (ofLeBytes raw)
    rw [hback] at hread
    exact hread
  yields _ _ _ _ := trivial

theorem inverts_readI64 : Inverts readI64 writeI64 fun _ => True :=
  inverts_readU64.map (g := Int64.toUInt64) (fun _ => rfl) (fun _ => rfl)

theorem inverts_readWord : Inverts readWord writeWord fun _ => True where
  reads value _ := by
    have hback : UInt32.ofNat (ofLeBytes (leBytes 4 value.toNat)) = value := by
      have hlt : value.toNat < 256 ^ 4 := UInt32.toNat_lt value
      rw [ofLeBytes_leBytes, Nat.mod_eq_of_lt hlt, UInt32.ofNat_toNat]
    have hread := ((inverts_readExact 4).reads _ (leBytes_length 4 value.toNat)).map
      fun raw => UInt32.ofNat (ofLeBytes raw)
    rw [hback] at hread
    exact hread
  yields _ _ _ _ := trivial

/-! ### Texts -/

/-- The UTF-8 bytes of a text. -/
def utf8 (s : Str) : Bytes := s.flatMap String.utf8EncodeChar

/-- `String::from_utf8`. -/
def fromUtf8? (bytes : Bytes) : Option Str :=
  (bytes.toByteArray.utf8Decode?).map Array.toList

/-- `arg_str`: an argument that is no text counts as the empty one. -/
def argStr (arg : Bytes) : Str := (fromUtf8? arg).getD []

@[simp] theorem fromUtf8?_utf8 (s : Str) : fromUtf8? (utf8 s) = some s := by
  have hdecode : (utf8 s).toByteArray.utf8Decode? = some s.toArray :=
    utf8Decode?_utf8Encode
  simp [fromUtf8?, hdecode]

theorem utf8_injective : Function.Injective utf8 := by
  intro s t h
  have hs := fromUtf8?_utf8 s
  rw [h, fromUtf8?_utf8] at hs
  injection hs with hs
  exact hs.symm

def writeText (s : Str) : Bytes := writeBytes (utf8 s)

/-- A text field, over a reader of byte strings. -/
def readText (bytes : Reader Bytes) : Reader Str := do
  let raw ← bytes
  match fromUtf8? raw with
  | some s => pure s
  | none => refuse .invalidData "invalid utf-8 sequence"

/-- What the decoder accepts is the encoding of what it returns. -/
theorem utf8_of_fromUtf8? {bytes : Bytes} {s : Str} (h : fromUtf8? bytes = some s) :
    utf8 s = bytes := by
  obtain ⟨chars, hdecode, rfl⟩ := Option.map_eq_some_iff.mp h
  have hvalid : bytes.toByteArray.IsValidUTF8 :=
    ByteArray.isSome_utf8Decode?_iff.mp (by rw [hdecode]; rfl)
  obtain ⟨m, hm⟩ := hvalid
  have hround : bytes.toByteArray.utf8Decode? = some m.toArray := by
    rw [hm]
    exact utf8Decode?_utf8Encode
  rw [hdecode] at hround
  cases hround
  have hbytes := congrArg (fun b : ByteArray => b.data.toList) hm
  simpa [utf8, utf8Encode] using hbytes.symm

theorem Inverts.text {bytes : Reader Bytes} {FitsLength : Nat → Prop}
    (h : Inverts bytes writeBytes fun raw => FitsLength raw.length) :
    Inverts (readText bytes) writeText fun s => FitsLength (utf8 s).length where
  reads s hfits := by
    intro rest
    rw [readText, writeText, bind_of_ok (h.reads (utf8 s) hfits rest), fromUtf8?_utf8]
    rfl
  yields := by
    refine h.yields.bind fun raw hraw => ?_
    cases htext : fromUtf8? raw with
    | none => exact Yields.refuse
    | some s =>
      apply Yields.pure
      rw [utf8_of_fromUtf8? htext]
      exact hraw

/-- A length-prefixed byte string without a limit of its own. -/
theorem inverts_readBytes : Inverts readBytes writeBytes fun raw => raw.length < 2 ^ 32 where
  reads _ hlen := readBytes_append hlen
  yields input value rest hread := by
    unfold readBytes at hread
    cases hlen : readU32 input with
    | error error => simp [hlen] at hread
    | ok pair =>
      obtain ⟨n, tail⟩ := pair
      have hn := inverts_readU32.yields input n tail hlen
      simp only [hlen] at hread
      split at hread
      · rename_i hle
        injection hread with hread
        injection hread with hvalue
        rw [← hvalue, length_take, Nat.min_eq_left hle]
        exact hn
      · cases hread

end ByteCodec
