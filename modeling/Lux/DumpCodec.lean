import Lux.DumpValue

/-!
# The bytes of a dumped value

Snapshots and the cold tier write a value the same way: a type byte, the key, a
lifetime and the fields of the value. They read it with different field readers:
a snapshot bounds every length and count, the cold tier only checks that the
bytes are there. A `Dialect` is one such set of field readers, together with
what each of them takes; the layout of the nine kinds of values is stated once
over it.

`reads_readValue` is the round trip for the values that fit a dialect, and
`yields_readValue` says that no other value is ever read.
-/

namespace Lux

open ByteCodec StdText List Yields

/-- A type byte. -/
def tag (c : Char) : UInt8 := UInt8.ofNat c.toNat

/-! ## Writing -/

/-- The delivery count of a pending entry, in four bytes that saturate. -/
def writeDeliveryCount (count : UInt64) : Bytes := leBytes 4 (min count.toNat (2 ^ 32 - 1))

/-- A pending entry: its identifier, its consumer and the delivery count. -/
def writePending : StreamPendingDump → Bytes :=
  writePair writeText (writePair writeText writeDeliveryCount)

/-- A consumer with the identifiers pending for it. -/
def writeConsumer : StreamConsumerDump → Bytes :=
  writePair writeText (writeList writeText)

/-- A group: its name, the last identifier it delivered, consumers and pending entries. -/
def writeGroup : StreamGroupDump → Bytes :=
  writePair writeText
    (writePair writeText (writePair (writeList writeConsumer) (writeList writePending)))

def writeField : Str × Bytes → Bytes := writePair writeText writeBytes

/-- A stream entry: its identifier and its fields. -/
def writeStreamEntry : StreamDumpEntry → Bytes := writePair writeText (writeList writeField)

/-- A flag, and the metadata of a vector if it has some. -/
def writeMetadata : Option Str → Bytes
  | some metadata => 1 :: writeText metadata
  | none => [0]

/-- The type byte of a value that is written in the clear. -/
def dumpType : DumpValue → UInt8
  | .str _ => tag 'S'
  | .list _ => tag 'L'
  | .hash _ expiries => if expiries.isEmpty then tag 'H' else tag 'h'
  | .set _ => tag 'T'
  | .sortedSet _ => tag 'Z'
  | .stream .. => tag 'X'
  | .vector .. => tag 'V'
  | .hyperLogLog _ => tag 'P'
  | .timeSeries .. => tag 'I'

/-- The fields of a value that is written in the clear. -/
def writeValue : DumpValue → Bytes
  | .str value => writeBytes value
  | .list items => writeList writeBytes items
  | .hash pairs expiries =>
    writeList writeField pairs ++
      if expiries.isEmpty then [] else writeList (writePair writeText writeI64) expiries
  | .set members => writeList writeText members
  | .sortedSet members => writeList (writePair writeText writeU64) members
  | .stream entries lastId groups =>
    writeText lastId ++ (writeList writeStreamEntry entries ++ writeList writeGroup groups)
  | .vector data metadata _ => writeList writeWord data ++ writeMetadata metadata
  | .hyperLogLog registers => leBytes 4 registers.length ++ registers
  | .timeSeries samples retention labels =>
    writeList (writePair writeI64 writeU64) samples ++
      (writeI64 retention.toInt64 ++ writeList (writePair writeText writeText) labels)

/-- The bytes of an entry in the clear: type byte, key, lifetime, value. -/
def writeEntry (key : Str) (ttlMs : Int64) (value : DumpValue) : Bytes :=
  dumpType value :: (writeText key ++ (writeI64 ttlMs ++ writeValue value))

/-! ## Reading -/

/-- Counts are stored in 32 bits and held in 64. -/
def readDeliveryCount : Reader UInt64 := UInt64.ofNat <$> readU32

/-- A flag, and a text if the flag is one. -/
def readOptional (text : Reader Str) : Reader (Option Str) := do
  let flag ← readExact 1
  if flag = [1] then some <$> text else pure none

theorem yields_readOptional {text : Reader Str} {P : Str → Prop} (h : Yields text P) :
    Yields (readOptional text) fun metadata => ∀ s ∈ metadata, P s := by
  have hflag : Yields (readExact 1) fun _ => True := fun _ _ _ _ => trivial
  refine hflag.bind fun flag _ => ite (fun _ => ?_) fun _ => pure (by simp)
  exact h.map fun s hs => by simpa using hs

/-- The section of consumer groups behind a stream's entries. -/
inductive GroupsSection where
  /-- The oldest snapshots have none. -/
  | absent
  | present
  /-- The cold tier takes a record that ends in front of it. -/
  | optional
  deriving DecidableEq, Repr

/-- The field readers of one format and what they take. -/
structure Dialect where
  readBytes : Reader Bytes
  readCount : String → Reader Nat
  /-- A count of items of one size. -/
  readSizedCount : String → Nat → Reader Nat
  /-- A vector that is sealed under its key. -/
  readSealed : Str → Reader DumpValue
  FitsBytes : Nat → Prop
  FitsCount : Nat → Prop
  FitsSized : Nat → Nat → Prop
  empty : FitsCount 0
  bytes : Inverts readBytes writeBytes fun raw => FitsBytes raw.length
  count : ∀ label, Inverts (readCount label) (leBytes 4) FitsCount
  sized : ∀ label size, Inverts (readSizedCount label size) (leBytes 4) (FitsSized size)
  isSealed : ∀ key, Yields (readSealed key) fun value =>
    ∃ data metadata, value = .vector data metadata true ∧
      ∀ text ∈ metadata, FitsBytes (utf8 text).length

namespace Dialect

variable (d : Dialect)

def readText : Reader Str := ByteCodec.readText d.readBytes

def readField : Reader (Str × Bytes) := readPair d.readText d.readBytes

def readStreamEntry : Reader StreamDumpEntry :=
  readPair d.readText (readList (d.readCount "stream field") d.readField)

def readConsumer : Reader StreamConsumerDump :=
  readPair d.readText (readList (d.readCount "stream consumer pending") d.readText)

def readPending : Reader StreamPendingDump :=
  readPair d.readText (readPair d.readText readDeliveryCount)

def readGroup : Reader StreamGroupDump :=
  readPair d.readText (readPair d.readText
    (readPair (readList (d.readCount "stream consumer") d.readConsumer)
      (readList (d.readCount "stream group pending") d.readPending)))

/-- The groups of a stream, where the format has them; in one format they may be missing at the end
of the input. -/
def readGroups : GroupsSection → Reader (List StreamGroupDump)
  | .absent => pure []
  | .present => readList (d.readCount "stream group") d.readGroup
  | .optional => fun input =>
    if input.isEmpty then .ok ([], [])
    else readList (d.readCount "stream group") d.readGroup input

def readMetadata : Reader (Option Str) := readOptional d.readText

/-- `hll::read_registers`. -/
def readRegisters (len : Nat) : Reader Bytes := do
  if len ≠ hllRegisters then
    refuse .invalidData "invalid HyperLogLog register count"
  else
    let registers ← readExact hllRegisters
    if registers.any (fun value => 51 < value) then
      refuse .invalidData "invalid HyperLogLog register value"
    else
      pure registers

def readStr : Reader DumpValue := DumpValue.str <$> d.readBytes

def readListValue : Reader DumpValue :=
  DumpValue.list <$> readList (d.readCount "list item") d.readBytes

/-- The deadlines of the fields follow in the formats that have them. -/
def readHash (expiring : Bool) : Reader DumpValue := do
  let pairs ← readList (d.readCount "hash field") d.readField
  let expiries ←
    if expiring then readList (d.readCount "hash field ttl") (readPair d.readText readI64)
    else pure []
  pure (.hash pairs expiries)

def readSet : Reader DumpValue :=
  DumpValue.set <$> readList (d.readCount "set member") d.readText

def readSortedSet : Reader DumpValue :=
  DumpValue.sortedSet <$>
    readList (d.readCount "sorted set member") (readPair d.readText readU64)

def readStream (groups : GroupsSection) : Reader DumpValue := do
  let lastId ← d.readText
  let entries ← readList (d.readCount "stream entry") d.readStreamEntry
  let groups ← d.readGroups groups
  pure (.stream entries lastId groups)

/-- The components are read as patterns of 32 bits, with the text that may follow them. -/
def readVector : Reader DumpValue := do
  let data ← readList (d.readSizedCount "vector dimension" 4) readWord
  let metadata ← d.readMetadata
  pure (.vector data metadata false)

/-- The registers are checked while they are read. -/
def readHyperLogLog : Reader DumpValue := do
  let len ← d.readSizedCount "hyperloglog register" 1
  let registers ← readRegisters len
  pure (.hyperLogLog registers)

def readTimeSeries : Reader DumpValue := do
  let samples ← readList (d.readSizedCount "timeseries sample" 16) (readPair readI64 readU64)
  let retention ← readI64
  let labels ← readList (d.readCount "timeseries label") (readPair d.readText d.readText)
  pure (.timeSeries samples retention.toUInt64 labels)

/-- `read_dump_value`, and the value part of `read_single_entry`. -/
def readValue (groups : GroupsSection) (key : Str) (typeByte : UInt8) : Reader DumpValue :=
  if typeByte = tag 'S' then d.readStr
  else if typeByte = tag 'L' then d.readListValue
  else if typeByte = tag 'H' then d.readHash false
  else if typeByte = tag 'h' then d.readHash true
  else if typeByte = tag 'T' then d.readSet
  else if typeByte = tag 'Z' then d.readSortedSet
  else if typeByte = tag 'X' then d.readStream groups
  else if typeByte = tag 'V' then d.readVector
  else if typeByte = tag 'W' then d.readSealed key
  else if typeByte = tag 'P' then d.readHyperLogLog
  else if typeByte = tag 'I' then d.readTimeSeries
  else refuse .invalidData ("unknown type byte: " ++ toString typeByte.toNat)

/-! ## What fits -/

/-- The lengths that a decoder accepts, for texts. -/
def FitsText (s : Str) : Prop := d.FitsBytes (utf8 s).length

/-- The same for lists: the count and every element. -/
def FitsList {α : Type} (Fits : α → Prop) (values : List α) : Prop :=
  d.FitsCount values.length ∧ ∀ value ∈ values, Fits value

def FitsField (p : Str × Bytes) : Prop := d.FitsText p.1 ∧ d.FitsBytes p.2.length

def FitsConsumer (p : StreamConsumerDump) : Prop := d.FitsText p.1 ∧ d.FitsList d.FitsText p.2

def FitsPending (p : StreamPendingDump) : Prop :=
  d.FitsText p.1 ∧ d.FitsText p.2.1 ∧ p.2.2.toNat < 2 ^ 32

def FitsGroup (p : StreamGroupDump) : Prop :=
  d.FitsText p.1 ∧ d.FitsText p.2.1 ∧ d.FitsList d.FitsConsumer p.2.2.1 ∧
    d.FitsList d.FitsPending p.2.2.2

/-- Every length, every count and every delivery count of the value is one the readers
take. -/
def Fits : DumpValue → Prop
  | .str value => d.FitsBytes value.length
  | .list items => d.FitsList (fun item => d.FitsBytes item.length) items
  | .hash pairs expiries =>
    d.FitsList d.FitsField pairs ∧ d.FitsList (fun p => d.FitsText p.1 ∧ True) expiries
  | .set members => d.FitsList d.FitsText members
  | .sortedSet members => d.FitsList (fun p => d.FitsText p.1 ∧ True) members
  | .stream entries lastId groups =>
    d.FitsText lastId ∧
      d.FitsList (fun p => d.FitsText p.1 ∧ d.FitsList d.FitsField p.2) entries ∧
      d.FitsList d.FitsGroup groups
  | .vector data metadata encrypted =>
    (encrypted = false → d.FitsSized 4 data.length) ∧ ∀ text ∈ metadata, d.FitsText text
  | .hyperLogLog registers => ValidRegisters registers ∧ d.FitsSized 1 registers.length
  | .timeSeries samples _ labels =>
    d.FitsSized 16 samples.length ∧
      d.FitsList (fun p => d.FitsText p.1 ∧ d.FitsText p.2) labels

/-! ## The round trip, field by field -/

variable {d}

theorem text : Inverts d.readText writeText d.FitsText := Inverts.text d.bytes

/-- Lists are read back if their elements are. -/
theorem list {α : Type} {read : Reader α} {write : α → Bytes} {Fits : α → Prop}
    (h : Inverts read write Fits) (label : String) :
    Inverts (readList (d.readCount label) read) (writeList write) (d.FitsList Fits) :=
  (d.count label).list h

/-- Fields are read back. -/
theorem field : Inverts d.readField writeField d.FitsField := text.pair d.bytes

theorem streamEntry : Inverts d.readStreamEntry writeStreamEntry
    fun p => d.FitsText p.1 ∧ d.FitsList d.FitsField p.2 :=
  text.pair (list field _)

theorem consumer : Inverts d.readConsumer writeConsumer d.FitsConsumer :=
  text.pair (list text _)

/-- A count is read back if it fits into 32 bits. -/
theorem deliveryCount :
    Inverts readDeliveryCount writeDeliveryCount fun count => count.toNat < 2 ^ 32 where
  reads count hfits := by
    have hmin : min count.toNat (2 ^ 32 - 1) = count.toNat := by omega
    have hread := (inverts_readU32.reads count.toNat hfits).map UInt64.ofNat
    rw [UInt64.ofNat_toNat] at hread
    unfold writeDeliveryCount
    rw [hmin]
    exact hread
  yields := by
    refine inverts_readU32.yields.map fun n hn => ?_
    have hmod : (UInt64.ofNat n).toNat = n % 2 ^ 64 := UInt64.toNat_ofNat'
    omega

/-- Pending entries are read back. -/
theorem pending : Inverts d.readPending writePending d.FitsPending :=
  text.pair (text.pair deliveryCount)

/-- Groups are read back. -/
theorem group : Inverts d.readGroup writeGroup d.FitsGroup :=
  text.pair (text.pair ((list consumer _).pair (list pending _)))

variable {section' : GroupsSection}

/-- A section of groups is read back by the formats that have one. -/
theorem reads_readGroups (hsection : section' ≠ .absent) {groups : List StreamGroupDump}
    (h : d.FitsList d.FitsGroup groups) :
    Reads (d.readGroups section') (writeList writeGroup groups) groups := by
  have hread := (list group "stream group").reads groups h
  cases section' with
  | absent => exact absurd rfl hsection
  | present => exact hread
  | optional =>
    intro rest
    exact hread rest

theorem fitsList_nil {α : Type} (Fits : α → Prop) : d.FitsList Fits [] :=
  ⟨d.empty, by simp⟩

/-- Whatever is read as groups fits, in each of the formats. -/
theorem yields_readGroups (section' : GroupsSection) :
    Yields (d.readGroups section') (d.FitsList d.FitsGroup) := by
  have hread : Yields (readList (d.readCount "stream group") d.readGroup)
      (d.FitsList d.FitsGroup) := (list group "stream group").yields
  cases section' with
  | absent => exact pure (fitsList_nil _)
  | present => exact hread
  | optional =>
    intro input groups rest h
    unfold readGroups at h
    by_cases hempty : input.isEmpty
    · simp only [hempty] at h
      injection h with h
      injection h with h
      exact h ▸ fitsList_nil _
    · simp only [hempty] at h
      exact hread input groups rest h

/-- The metadata of a vector are read back, also when there are none. -/
theorem reads_readMetadata {metadata : Option Str} (h : ∀ text ∈ metadata, d.FitsText text) :
    Reads d.readMetadata (writeMetadata metadata) metadata := by
  cases metadata with
  | none =>
    intro rest
    exact bind_of_ok ((inverts_readExact 1).reads [0] rfl rest)
  | some metadata =>
    have hflag : Reads (readExact 1) [1] [1] := (inverts_readExact 1).reads [1] rfl
    exact hflag.bind ((text.reads metadata (h metadata rfl)).map some)

/-- Registers in range pass the check of the reader. -/
theorem reads_readRegisters {registers : Bytes} (h : ValidRegisters registers) :
    Reads (readRegisters registers.length) registers registers := by
  have hany : registers.any (fun value => 51 < value) = false := by
    rw [any_eq_false]
    intro value hv
    simpa using h.2 value hv
  have hread := (inverts_readExact hllRegisters).reads registers h.1
  intro rest
  simp only [readRegisters, h.1, ne_eq]
  refine (bind_of_ok (hread rest)).trans ?_
  simp only [hany]
  rfl

/-- What passes that check is in range, and there is one byte for each register. -/
theorem yields_readRegisters (len : Nat) :
    Yields (readRegisters len) fun registers =>
      ValidRegisters registers ∧ len = registers.length := by
  refine ite (fun _ => refuse) fun hlen => ?_
  refine (inverts_readExact hllRegisters).yields.bind fun registers hregs => ?_
  refine ite (fun _ => refuse) fun hany => pure ⟨⟨hregs, ?_⟩, ?_⟩
  · intro value hv
    by_contra hlt
    apply hany
    rw [any_eq_true]
    exact ⟨value, hv, by simpa using hlt⟩
  · rw [hregs]
    exact not_not.mp hlen

/-! ## The round trip of a value -/

/-- **What fits is read back.**  The sections a format may leave out are there; a vector
is in the clear. -/
theorem reads_readValue (hsection : section' ≠ .absent) (key : Str) {value : DumpValue}
    (hfits : d.Fits value) (hclear : ∀ data metadata, value ≠ .vector data metadata true) :
    Reads (d.readValue section' key (dumpType value)) (writeValue value) value := by
  cases value with
  | str value => exact (d.bytes.reads value hfits).map DumpValue.str
  | list items => exact ((list d.bytes _).reads items hfits).map DumpValue.list
  | hash pairs expiries =>
    have hpairs := (list (d := d) field "hash field").reads pairs hfits.1
    by_cases hempty : expiries = []
    · subst hempty
      have hread := hpairs.map fun pairs => DumpValue.hash pairs []
      simp only [writeValue, isEmpty_nil, if_true, append_nil]
      exact hread
    · have hexpiries := ((list (d := d) (text.pair inverts_readI64) "hash field ttl").reads
        expiries hfits.2).map (DumpValue.hash pairs)
      have hne : expiries.isEmpty = false := by simpa using hempty
      simp only [dumpType, writeValue, hne]
      exact hpairs.bind hexpiries
  | set members => exact ((list text _).reads members hfits).map DumpValue.set
  | sortedSet members =>
    exact ((list (text.pair inverts_readU64) _).reads members hfits).map DumpValue.sortedSet
  | stream entries lastId groups =>
    have hend := (reads_readGroups hsection hfits.2.2).map (DumpValue.stream entries lastId)
    exact (text.reads lastId hfits.1).bind
      (((list streamEntry _).reads entries hfits.2.1).bind hend)
  | vector data metadata encrypted =>
    have hplain : encrypted = false := by
      cases encrypted with
      | false => rfl
      | true => exact absurd rfl (hclear data metadata)
    subst hplain
    have hdata := ((d.sized "vector dimension" 4).list inverts_readWord).reads data
      ⟨hfits.1 rfl, fun _ _ => trivial⟩
    exact hdata.bind ((reads_readMetadata hfits.2).map (DumpValue.vector data · false))
  | hyperLogLog registers =>
    have hlen := (d.sized "hyperloglog register" 1).reads registers.length hfits.2
    exact hlen.bind ((reads_readRegisters hfits.1).map DumpValue.hyperLogLog)
  | timeSeries samples retention labels =>
    have hsamples := ((d.sized "timeseries sample" 16).list
      (inverts_readI64.pair inverts_readU64)).reads samples ⟨hfits.1, fun _ _ => ⟨trivial, trivial⟩⟩
    have hretention := inverts_readI64.reads retention.toInt64 trivial
    have hlabels := ((list (d := d) (text.pair text) "timeseries label").reads labels
      hfits.2).map (DumpValue.timeSeries samples retention)
    exact hsamples.bind (hretention.bind hlabels)

/-- **What is read fits.** -/
theorem yields_readValue (section' : GroupsSection) (key : Str) (typeByte : UInt8) :
    Yields (d.readValue section' key typeByte) d.Fits := by
  refine ite (fun _ => ?_) fun _ => ?_
  · exact d.bytes.yields.map fun _ h => h
  refine ite (fun _ => ?_) fun _ => ?_
  · exact (list d.bytes _).yields.map fun _ h => h
  refine ite (fun _ => ?_) fun _ => ?_
  · exact (list field _).yields.bind fun pairs hpairs =>
      pure ⟨hpairs, fitsList_nil _⟩
  refine ite (fun _ => ?_) fun _ => ?_
  · exact (list field _).yields.bind fun pairs hpairs =>
      (list (text.pair inverts_readI64) _).yields.bind fun expiries hexpiries =>
        pure ⟨hpairs, hexpiries⟩
  refine ite (fun _ => ?_) fun _ => ?_
  · exact (list text _).yields.map fun _ h => h
  refine ite (fun _ => ?_) fun _ => ?_
  · exact (list (text.pair inverts_readU64) _).yields.map fun _ h => h
  refine ite (fun _ => ?_) fun _ => ?_
  · exact text.yields.bind fun lastId hid => (list streamEntry _).yields.bind
      fun entries hentries => (yields_readGroups section').bind fun groups hgroups =>
        pure ⟨hid, hentries, hgroups⟩
  refine ite (fun _ => ?_) fun _ => ?_
  · exact ((d.sized "vector dimension" 4).list inverts_readWord).yields.bind fun data hdata =>
      (yields_readOptional text.yields).bind fun metadata hmeta => pure ⟨fun _ => hdata.1, hmeta⟩
  refine ite (fun _ => ?_) fun _ => ?_
  · intro input value rest h
    obtain ⟨data, metadata, rfl, hmeta⟩ := d.isSealed key input value rest h
    exact ⟨fun hfalse => absurd hfalse (by simp), hmeta⟩
  refine ite (fun _ => ?_) fun _ => ?_
  · exact (d.sized "hyperloglog register" 1).yields.bind fun len hlen =>
      (yields_readRegisters len).bind fun registers hregs =>
        pure ⟨hregs.1, hregs.2 ▸ hlen⟩
  refine ite (fun _ => ?_) fun _ => refuse
  · exact ((d.sized "timeseries sample" 16).list (inverts_readI64.pair inverts_readU64)).yields.bind
      fun samples hsamples => inverts_readI64.yields.bind fun retention _ =>
        (list (text.pair text) _).yields.bind fun labels hlabels =>
          pure ⟨hsamples.1, hlabels⟩

/-! ## Entries -/

variable (d) in
/-- One entry. -/
def readEntry (groups : GroupsSection) : Reader (Str × Int64 × DumpValue) := do
  let typeByte ← readExact 1
  let key ← d.readText
  let ttlMs ← readI64
  let value ← d.readValue groups key (typeByte.headD 0)
  pure (key, ttlMs, value)

/-- An entry is read back when its key and its value fit. -/
theorem reads_readEntry (hsection : section' ≠ .absent) {key : Str} (hkey : d.FitsText key)
    (ttlMs : Int64) {value : DumpValue} (hfits : d.Fits value)
    (hclear : ∀ data metadata, value ≠ .vector data metadata true) :
    Reads (d.readEntry section') (writeEntry key ttlMs value) (key, ttlMs, value) := by
  have htype : Reads (readExact 1) [dumpType value] [dumpType value] :=
    (inverts_readExact 1).reads _ rfl
  have hvalue := (reads_readValue hsection key hfits hclear).map fun value => (key, ttlMs, value)
  exact htype.bind ((text.reads key hkey).bind ((inverts_readI64.reads ttlMs trivial).bind hvalue))

/-- The key and the value of an entry that is read fit. -/
theorem yields_readEntry (section' : GroupsSection) :
    Yields (d.readEntry section') fun entry => d.FitsText entry.1 ∧ d.Fits entry.2.2 :=
  (inverts_readExact 1).yields.bind fun typeByte _ => text.yields.bind fun key hkey =>
    inverts_readI64.yields.bind fun _ _ =>
      (yields_readValue section' key (typeByte.headD 0)).bind fun _ hvalue =>
        pure ⟨hkey, hvalue⟩

end Dialect

/-! ## What the bytes cannot say -/

/-- The delivery count that four bytes can hold. -/
def PendingEntry.saturated (p : PendingEntry) : PendingEntry :=
  { p with deliveryCount := UInt64.ofNat (min p.deliveryCount.toNat (2 ^ 32 - 1)) }

def ConsumerGroup.saturated (group : ConsumerGroup) : ConsumerGroup :=
  { group with pel := group.pel.map fun p => (p.1, p.2.saturated) }

/-- The value with every delivery count cut to four bytes. -/
def StoreValue.saturated : StoreValue → StoreValue
  | .stream data =>
    .stream { data with groups := data.groups.map fun p => (p.1, p.2.saturated) }
  | value => value

theorem saturated_deliveryCount (p : PendingEntry) :
    p.saturated.deliveryCount.toNat = min p.deliveryCount.toNat (2 ^ 32 - 1) := by
  have hmod : (UInt64.ofNat (min p.deliveryCount.toNat (2 ^ 32 - 1))).toNat =
      min p.deliveryCount.toNat (2 ^ 32 - 1) % 2 ^ 64 := UInt64.toNat_ofNat'
  unfold PendingEntry.saturated
  dsimp only
  omega

/-- Cutting the delivery count changes nothing in what is written. -/
theorem writePending_saturated (p : StreamId × PendingEntry) :
    writePending (dumpPending (p.1, p.2.saturated)) = writePending (dumpPending p) := by
  have hcount : writeDeliveryCount p.2.saturated.deliveryCount =
      writeDeliveryCount p.2.deliveryCount := by
    unfold writeDeliveryCount
    rw [saturated_deliveryCount, min_assoc, min_self]
  simp only [writePending, writePair, dumpPending, hcount]
  rfl

theorem writeList_congr {α : Type} {write : α → Bytes} {first second : List α}
    (h : first.map write = second.map write) : writeList write first = writeList write second := by
  have hlen := congrArg length h
  rw [length_map, length_map] at hlen
  simp only [writeList, flatMap_def, h, hlen]

/-- Nor does it for a group. -/
theorem writeGroup_saturated (p : Str × ConsumerGroup) :
    writeGroup (dumpGroup (p.1, p.2.saturated)) = writeGroup (dumpGroup p) := by
  have hpel : writeList writePending ((p.2.pel.map fun q => (q.1, q.2.saturated)).map dumpPending) =
      writeList writePending (p.2.pel.map dumpPending) := by
    apply writeList_congr
    rw [map_map, map_map, map_map]
    exact map_congr_left fun q _ => writePending_saturated q
  simp only [writeGroup, writePair, dumpGroup, ConsumerGroup.saturated, hpel]

/-- A value and the value with its counts cut are written the same way. -/
theorem writeValue_saturated (value : StoreValue) :
    writeValue (storeValueToDumpValue value.saturated) =
      writeValue (storeValueToDumpValue value) := by
  cases value with
  | stream data =>
    have hgroups : writeList writeGroup
        ((data.groups.map fun p => (p.1, p.2.saturated)).map dumpGroup) =
          writeList writeGroup (data.groups.map dumpGroup) := by
      apply writeList_congr
      rw [map_map, map_map, map_map]
      exact map_congr_left fun p _ => writeGroup_saturated p
    simp only [StoreValue.saturated, storeValueToDumpValue, writeValue, hgroups]
  | _ => rfl

/-- Nor does the type byte change. -/
theorem dumpType_saturated (value : StoreValue) :
    dumpType (storeValueToDumpValue value.saturated) = dumpType (storeValueToDumpValue value) := by
  cases value <;> rfl

theorem ConsumerGroup.Valid.saturated {group : ConsumerGroup} (h : group.Valid) :
    group.saturated.Valid where
  consumers := h.consumers
  pel := by
    have hkeys : (group.saturated.pel).map Prod.fst = group.pel.map Prod.fst := by
      simp [ConsumerGroup.saturated]
    rw [hkeys]
    exact h.pel
  owned p hp := by
    obtain ⟨q, hq, rfl⟩ := mem_map.mp hp
    exact h.owned q hq

theorem StoreValue.Valid.saturated {value : StoreValue} (h : value.Valid) :
    value.saturated.Valid := by
  cases value with
  | stream data =>
    refine ⟨h.1, ?_, fun p hp => ?_⟩
    · have hkeys : (data.groups.map fun p => (p.1, p.2.saturated)).map Prod.fst =
          data.groups.map Prod.fst := by simp
      rw [hkeys]
      exact h.2.1
    · obtain ⟨q, hq, rfl⟩ := mem_map.mp hp
      exact (h.2.2 q hq).saturated
  | _ => exact h

end Lux
