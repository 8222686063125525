import Lux.DumpCodec
import Lux.WalFormat
import Lux.Runs

/-!
# A shard of the cold tier

A shard is an append-only file of records and an index from keys to positions in
it. Evicting a key appends its record; a key that is evicted again leaves its old
record behind, and compaction rewrites the file with the records in use.

`Stores shard key ttl created found` says what the shard has for a key: its
lifetime, when it was written, and the value its record reads as, or that its record
cannot be read. A put decides which of the two by the length of the record alone
(`put_stores`, `put_stores_long`), and every operation on another key keeps it,
compaction included (`stores_run`). A write that fails leaves the shard as it was
and is not modelled.
-/

namespace Lux

open ByteCodec StdText KeyedList List

/-! ## Records -/

/-- The field readers of the cold tier: no limits but those of the length fields. -/
def diskDialect : Dialect where
  readBytes := ByteCodec.readBytes
  readCount _ := readU32
  readSizedCount _ _ := readU32
  readSealed _ := refuse .invalidData "unknown type byte: 87"
  FitsBytes := (· < 2 ^ 32)
  FitsCount := (· < 2 ^ 32)
  FitsSized _ := (· < 2 ^ 32)
  empty := by decide
  bytes := inverts_readBytes
  count _ := inverts_readU32
  sized _ _ := inverts_readU32
  isSealed _ := Yields.refuse

/-- The lifetime a record stores: `-1` for none. -/
def storedTtl (ttlMs : Int64) : Int64 := if 0 < ttlMs then ttlMs else -1

/-- `write_single_entry`. -/
def writeSingleEntry (entry : DumpEntry) : Bytes :=
  writeEntry entry.key (storedTtl entry.ttlMs) entry.value

/-- A record: length, checksum, entry. -/
def diskRecord (data : Bytes) : Bytes :=
  leBytes 4 data.length ++ (leBytes 4 (crc32 data).toNat ++ data)

/-- The entry inside a record. -/
def openRecord (key : Str) (buf : Bytes) : IoResult Bytes :=
  if buf.length < 8 then
    .error ⟨.invalidData, "disk entry too short for checksum envelope"⟩
  else if ofLeBytes (buf.take 4) ≠ buf.length - 8 then
    .error ⟨.invalidData, "disk entry length mismatch for key '" ++ String.ofList key ++
      "' (declared=" ++ toString (ofLeBytes (buf.take 4)) ++
      " actual=" ++ toString (buf.length - 8) ++ ")"⟩
  else if ofLeBytes ((buf.drop 4).take 4) ≠ (crc32 (buf.drop 8)).toNat then
    .error ⟨.invalidData, "disk entry checksum mismatch for key '" ++ String.ofList key ++
      "' (stored=" ++ hex010 (ofLeBytes ((buf.drop 4).take 4)) ++
      " computed=" ++ hex010 (crc32 (buf.drop 8)).toNat ++ ")"⟩
  else
    .ok (buf.drop 8)

/-! ## The shard -/

/-- Where a key's record is, its lifetime, and when it was written. -/
structure DiskEntry where
  offset : Nat
  length : Nat
  ttlMs : Int64
  createdAt : Instant
  deriving DecidableEq

/-- `Duration::as_millis() as i64`. -/
def millisI64 (nanos : Nat) : Int64 := (UInt64.ofNat (nanos / nanosPerMs)).toInt64

namespace DiskEntry

def isExpired (de : DiskEntry) (now : Instant) : Bool :=
  if de.ttlMs ≤ 0 then false else de.ttlMs ≤ millisI64 (now - de.createdAt)

def remainingTtlMs (de : DiskEntry) (now : Instant) : Int64 :=
  if de.ttlMs ≤ 0 then -1
  else
    let remaining := de.ttlMs - millisI64 (now - de.createdAt)
    if remaining ≤ 0 then 0 else remaining

end DiskEntry

structure DiskShard where
  index : List (Str × DiskEntry)
  dataFile : Bytes
  /-- Whether the file has the checksummed format. -/
  hasChecksums : Bool
  compactionSafe : Bool
  deriving DecidableEq

/-- The bytes `LXD1`. -/
def dataMagic : Bytes := [0x4c, 0x58, 0x44, 0x31]

namespace DiskShard

/-- `put`, with the instant that is read once the record is written. -/
def put (shard : DiskShard) (key : Str) (dump : DumpEntry) (createdAt : Instant) : DiskShard :=
  let buf := diskRecord (writeSingleEntry dump)
  { shard with
    dataFile := shard.dataFile ++ buf
    index := KeyedList.put shard.index key
      ⟨shard.dataFile.length, buf.length % 2 ^ 32, storedTtl dump.ttlMs, createdAt⟩ }

/-- The entry in the bytes the index points to. -/
def entryBytes (shard : DiskShard) (key : Str) (buf : Bytes) : IoResult Bytes :=
  if shard.hasChecksums then openRecord key buf else .ok buf

/-- `read_indexed_entry`. -/
def readIndexedEntry (shard : DiskShard) (key : Str) (de : DiskEntry) :
    IoResult (Bytes × DumpValue × Int64) := do
  let (buf, _) ← readExact de.length (shard.dataFile.drop de.offset)
  let entryData ← shard.entryBytes key buf
  let ((storedKey, ttlMs, value), cursor) ← diskDialect.readEntry .optional entryData
  if storedKey ≠ key ∨ cursor ≠ [] then
    .error ⟨.invalidData, "disk index does not match the complete record for key '" ++
      String.ofList key ++ "'"⟩
  else
    .ok (entryData, value, ttlMs)

def remove (shard : DiskShard) (key : Str) : DiskShard :=
  { shard with index := erase shard.index key }

def contains (shard : DiskShard) (key : Str) : Bool := (shard.index.lookup key).isSome

/-- `get`: an expired entry is dropped from the index. -/
def get (shard : DiskShard) (key : Str) (now : Instant) :
    DiskShard × IoResult (Option (DumpValue × Option Nat)) :=
  match shard.index.lookup key with
  | none => (shard, .ok none)
  | some de =>
    if de.isExpired now then
      (shard.remove key, .ok none)
    else
      match shard.readIndexedEntry key de with
      | .error error => (shard, .error error)
      | .ok (_, value, _) =>
        let remaining := de.remainingTtlMs now
        (shard, .ok (some (value,
          if 0 < remaining then some remaining.toInt.toNat else none)))

/-- One pass of the loop of `compact_inner`, over what has been written so far. -/
def compactStep (shard : DiskShard) (written : List (Str × DiskEntry) × Bytes)
    (p : Str × DiskEntry) : IoResult (List (Str × DiskEntry) × Bytes) :=
  match shard.readIndexedEntry p.1 p.2 with
  | .error error => .error error
  | .ok (data, _, ttlMs) =>
    if 2 ^ 32 ≤ data.length + 8 then
      .error ⟨.invalidData, "tiered entry is too large"⟩
    else
      .ok (written.1 ++ [(p.1, ⟨written.2.length, data.length + 8, ttlMs, p.2.createdAt⟩)],
        written.2 ++ diskRecord data)

def compactLoop (shard : DiskShard) : List (Str × DiskEntry) → List (Str × DiskEntry) × Bytes →
    IoResult (List (Str × DiskEntry) × Bytes)
  | [], written => .ok written
  | p :: rest, written =>
    match shard.compactStep written p with
    | .error error => .error error
    | .ok written => shard.compactLoop rest written

/-- `compact`: the records in use, in the order of their keys, in a new file. A failure
leaves the shard as it was. -/
def compact (shard : DiskShard) : DiskShard × IoResult Unit :=
  if !shard.compactionSafe then
    (shard, .error ⟨.invalidData,
      "refusing to compact a tiered shard that opened with rejected records"⟩)
  else
    match shard.compactLoop (shard.index.insertionSort fun a b => a.1 ≤ b.1) ([], dataMagic) with
    | .error error => (shard, .error error)
    | .ok (index, file) => (⟨index, file, true, true⟩, .ok ())

end DiskShard

/-- What happens to a shard. -/
inductive DiskOp where
  | put (key : Str) (dump : DumpEntry) (createdAt : Instant)
  | get (key : Str) (now : Instant)
  | remove (key : Str)
  | compact

/-- The key an operation names. -/
def DiskOp.key? : DiskOp → Option Str
  | .put key _ _ => some key
  | .get key _ => some key
  | .remove key => some key
  | .compact => none

def DiskShard.step (shard : DiskShard) : DiskOp → DiskShard
  | .put key dump createdAt => shard.put key dump createdAt
  | .get key now => (shard.get key now).1
  | .remove key => shard.remove key
  | .compact => shard.compact.1

/-! ## Reading a record back -/

variable (data : Bytes)

theorem take_diskRecord : (diskRecord data).take 4 = leBytes 4 data.length := by
  rw [diskRecord, take_append_of_le_length (by simp), take_of_length_le (by simp)]

theorem drop_diskRecord : (diskRecord data).drop 4 = leBytes 4 (crc32 data).toNat ++ data := by
  rw [diskRecord, drop_left' (by simp)]

theorem diskRecord_length : (diskRecord data).length = data.length + 8 := by
  simp only [diskRecord, length_append, leBytes_length]
  omega

theorem ofLeBytes_crc32 : ofLeBytes (leBytes 4 (crc32 data).toNat) = (crc32 data).toNat := by
  rw [ofLeBytes_leBytes]
  exact Nat.mod_eq_of_lt (UInt32.toNat_lt (crc32 data))

/-- The bytes of a record in front of a cut, in parts. -/
theorem take_record {n : Nat} (h : 8 ≤ n) :
    ((diskRecord data).take n).take 4 = leBytes 4 data.length ∧
      (((diskRecord data).take n).drop 4).take 4 = leBytes 4 (crc32 data).toNat ∧
        ((diskRecord data).take n).drop 8 = data.take (n - 8) := by
  have hdrop : ((diskRecord data).take n).drop 4 =
      (leBytes 4 (crc32 data).toNat ++ data).take (n - 4) := by
    rw [drop_take, drop_diskRecord]
  refine ⟨?_, ?_, ?_⟩
  · rw [take_take, min_eq_left (by omega), take_diskRecord]
  · rw [hdrop, take_take, min_eq_left (by omega),
      take_append_of_le_length (by simp), take_of_length_le (by simp)]
  · have height : ((diskRecord data).take n).drop 8 =
        (((diskRecord data).take n).drop 4).drop 4 := by
      rw [drop_drop]
    rw [height, hdrop, drop_take, drop_left' (by simp), Nat.sub_sub]

theorem openRecord_diskRecord (key : Str) {data : Bytes} (h : data.length < 2 ^ 32) :
    openRecord key (diskRecord data) = .ok data := by
  have hlen := diskRecord_length data
  obtain ⟨hdeclared, hcrc, hdata⟩ := take_record data (n := data.length + 8) (by omega)
  rw [← hlen, take_length] at hdeclared hcrc hdata
  have hsize : ofLeBytes (leBytes 4 data.length) = data.length := by
    rw [ofLeBytes_leBytes]
    exact Nat.mod_eq_of_lt h
  unfold openRecord
  rw [hdeclared, hcrc, hdata, ofLeBytes_crc32, hsize, hlen]
  simp

/-- The checksum of a record that is longer than its length field can say differs from
the checksum of the part the index points to. -/
def CutDetected (data : Bytes) : Prop :=
  2 ^ 32 ≤ data.length → crc32 (data.take (data.length % 2 ^ 32)) ≠ crc32 data

/-- A record whose length does not fit the index cannot be opened. -/
theorem openRecord_long (key : Str) {data : Bytes} (h : 2 ^ 32 ≤ data.length + 8)
    (hcut : CutDetected data) :
    ∃ error, openRecord key ((diskRecord data).take ((data.length + 8) % 2 ^ 32)) =
      .error error := by
  have hlen : ((diskRecord data).take ((data.length + 8) % 2 ^ 32)).length =
      (data.length + 8) % 2 ^ 32 := by
    rw [length_take]
    exact min_eq_left (Nat.mod_le _ _)
  unfold openRecord
  by_cases hshort : (data.length + 8) % 2 ^ 32 < 8
  · rw [if_pos (by omega)]
    exact ⟨_, rfl⟩
  obtain ⟨hdeclared, hcrc, hdata⟩ := take_record data (not_lt.mp hshort)
  have hbig : 2 ^ 32 ≤ data.length := by omega
  have hmod : (data.length + 8) % 2 ^ 32 - 8 = data.length % 2 ^ 32 := by omega
  have hdiffer : (crc32 data).toNat ≠ (crc32 (data.take (data.length % 2 ^ 32))).toNat :=
    fun heq => hcut hbig (UInt32.toNat_inj.mp heq).symm
  rw [if_neg (by omega), hdeclared, hcrc, hdata, ofLeBytes_crc32, hmod]
  split
  · exact ⟨_, rfl⟩
  · exact ⟨_, rfl⟩

namespace DiskShard

variable {de : DiskEntry} {value : DumpValue}

/-- What a successful read has found. -/
theorem readIndexedEntry_ok {shard : DiskShard} {key : Str} {data : Bytes}
    {ttlMs : Int64} (h : shard.readIndexedEntry key de = .ok (data, value, ttlMs)) :
    diskDialect.readEntry .optional data = .ok ((key, ttlMs, value), []) := by
  obtain ⟨⟨buf, rest⟩, -, hopen⟩ := bind_eq_ok.mp h
  obtain ⟨entryData, -, hentry⟩ := bind_eq_ok.mp hopen
  obtain ⟨⟨⟨storedKey, ttl, found⟩, cursor⟩, hread, hmatch⟩ := bind_eq_ok.mp hentry
  dsimp only at hmatch
  split at hmatch
  · cases hmatch
  rename_i hsame
  rw [not_or, not_not, not_not] at hsame
  obtain ⟨rfl, rfl⟩ := hsame
  cases hmatch
  exact hread

/-- Reading depends on the bytes the entry points to, which more bytes do not change. -/
theorem readIndexedEntry_append {shard grown : DiskShard} {more : Bytes} (key : Str)
    (hfile : grown.dataFile = shard.dataFile ++ more)
    (hformat : grown.hasChecksums = shard.hasChecksums)
    (hin : de.offset + de.length ≤ shard.dataFile.length) :
    grown.readIndexedEntry key de = shard.readIndexedEntry key de := by
  have hdrop : grown.dataFile.drop de.offset = shard.dataFile.drop de.offset ++ more := by
    rw [hfile, drop_append_of_le_length (by omega)]
  have hlen : de.length ≤ (shard.dataFile.drop de.offset).length := by
    rw [length_drop]
    omega
  have hraw : ((shard.dataFile.drop de.offset).take de.length).length = de.length := by
    rw [length_take]
    omega
  have hsplit : shard.dataFile.drop de.offset =
      (shard.dataFile.drop de.offset).take de.length ++
        (shard.dataFile.drop de.offset).drop de.length := (take_append_drop _ _).symm
  unfold readIndexedEntry entryBytes
  rw [hdrop, hsplit, append_assoc, readExact_append hraw, readExact_append hraw, hformat]
  rfl

/-- A record at the end of a file of the current format is read back. -/
theorem readIndexedEntry_record {shard : DiskShard} {file data : Bytes} {key : Str} {ttlMs : Int64}
    (hformat : shard.hasChecksums = true)
    (hfile : shard.dataFile = file ++ diskRecord data) (hoffset : de.offset = file.length)
    (hlength : de.length = data.length + 8) (hshort : data.length < 2 ^ 32)
    (hread : diskDialect.readEntry .optional data = .ok ((key, ttlMs, value), [])) :
    shard.readIndexedEntry key de = .ok (data, value, ttlMs) := by
  have hexact := readExact_append (diskRecord_length data) []
  rw [append_nil] at hexact
  unfold readIndexedEntry entryBytes
  rw [hfile, hoffset, hlength, drop_left, hexact, hformat]
  simp only [bind, Except.bind, if_true, openRecord_diskRecord key hshort]
  have hentry := hread
  simp only [hentry]
  simp

/-! ## What a shard stores for a key -/

/-- The key's lifetime, when its record was written, and the value the record reads as;
`none` stands for a record that cannot be read. -/
def Stores (shard : DiskShard) (key : Str) (ttlMs : Int64) (createdAt : Instant)
    (found : Option DumpValue) : Prop :=
  ∃ de, shard.index.lookup key = some de ∧ de.ttlMs = ttlMs ∧ de.createdAt = createdAt ∧
    de.offset + de.length ≤ shard.dataFile.length ∧
      match found with
      | some value => ∃ data, shard.readIndexedEntry key de = .ok (data, value, ttlMs)
      | none => ∃ error, shard.readIndexedEntry key de = .error error

/-- Keys occur once, and the file has the current format. -/
structure WellFormed (shard : DiskShard) : Prop where
  nodup : (shard.index.map Prod.fst).Nodup
  format : shard.hasChecksums = true

variable {shard : DiskShard} {key : Str} {ttlMs : Int64} {createdAt : Instant}
  {found : Option DumpValue}

/-- More bytes and other keys' entries do not matter. -/
theorem Stores.grow {grown : DiskShard} {more : Bytes}
    (h : shard.Stores key ttlMs createdAt found)
    (hfile : grown.dataFile = shard.dataFile ++ more)
    (hformat : grown.hasChecksums = shard.hasChecksums)
    (hlookup : grown.index.lookup key = shard.index.lookup key) :
    grown.Stores key ttlMs createdAt found := by
  obtain ⟨de, hde, httl, hcreated, hin, hfound⟩ := h
  refine ⟨de, hlookup ▸ hde, httl, hcreated, ?_, ?_⟩
  · rw [hfile, length_append]
    omega
  · rw [readIndexedEntry_append key hfile hformat hin]
    exact hfound

/-- The record of a key that is put is read back when its length fits the index. -/
theorem put_stores (hformat : shard.hasChecksums = true) {dump : DumpEntry}
    (hshort : (writeSingleEntry dump).length + 8 < 2 ^ 32)
    (hread : diskDialect.readEntry .optional (writeSingleEntry dump) =
      .ok ((key, storedTtl dump.ttlMs, value), [])) (createdAt : Instant) :
    (shard.put key dump createdAt).Stores key (storedTtl dump.ttlMs) createdAt (some value) := by
  have hlen := diskRecord_length (writeSingleEntry dump)
  have hmod : (diskRecord (writeSingleEntry dump)).length % 2 ^ 32 =
      (writeSingleEntry dump).length + 8 := by
    rw [hlen, Nat.mod_eq_of_lt hshort]
  refine ⟨_, lookup_put_self _ _ _, rfl, rfl, ?_, writeSingleEntry dump, ?_⟩
  · dsimp only [put]
    rw [hmod, length_append, hlen]
  · exact readIndexedEntry_record hformat rfl rfl hmod (by omega) hread

/-- A longer record is one that cannot be read. -/
theorem put_stores_long (hformat : shard.hasChecksums = true) {dump : DumpEntry}
    (hlong : 2 ^ 32 ≤ (writeSingleEntry dump).length + 8)
    (hcut : CutDetected (writeSingleEntry dump)) (createdAt : Instant) :
    (shard.put key dump createdAt).Stores key (storedTtl dump.ttlMs) createdAt none := by
  have hlen := diskRecord_length (writeSingleEntry dump)
  have hle : (diskRecord (writeSingleEntry dump)).length % 2 ^ 32 ≤
      (diskRecord (writeSingleEntry dump)).length := Nat.mod_le _ _
  refine ⟨_, lookup_put_self _ _ _, rfl, rfl, ?_, ?_⟩
  · dsimp only [put]
    rw [length_append]
    omega
  · obtain ⟨error, herror⟩ := openRecord_long key hlong hcut
    refine ⟨error, ?_⟩
    unfold readIndexedEntry entryBytes readExact put
    rw [drop_left, if_pos hle, hformat, hlen]
    simp only [bind, Except.bind, if_true, herror]

/-! ### Compaction -/

/-- A record has been copied: the new entry reads in the new file as the old one did. -/
def Copied (shard : DiskShard) (p : Str × DiskEntry) (de : DiskEntry) (file : Bytes) : Prop :=
  ∃ data value ttlMs, shard.readIndexedEntry p.1 p.2 = .ok (data, value, ttlMs) ∧
    de.ttlMs = ttlMs ∧ de.createdAt = p.2.createdAt ∧ de.offset + de.length ≤ file.length ∧
      ∀ copy : DiskShard, copy.dataFile = file → copy.hasChecksums = true →
        copy.readIndexedEntry p.1 de = .ok (data, value, ttlMs)

theorem Copied.grow {p : Str × DiskEntry} {file : Bytes} (h : shard.Copied p de file)
    (more : Bytes) :
    shard.Copied p de (file ++ more) := by
  obtain ⟨data, value, ttlMs, hold, httl, hcreated, hin, hnew⟩ := h
  refine ⟨data, value, ttlMs, hold, httl, hcreated, ?_, fun copy hfile hformat => ?_⟩
  · rw [length_append]
    omega
  · rw [← hnew ⟨[], file, true, true⟩ rfl rfl]
    exact readIndexedEntry_append p.1 hfile hformat hin

/-- One pass copies one record to the end of the new file. -/
theorem compactStep_ok {written next : List (Str × DiskEntry) × Bytes} {p : Str × DiskEntry}
    (h : shard.compactStep written p = .ok next) :
    ∃ de more, next = (written.1 ++ [(p.1, de)], written.2 ++ more) ∧
      shard.Copied p de next.2 := by
  unfold compactStep at h
  split at h
  · cases h
  rename_i data value ttlMs hread
  split at h
  · cases h
  injection h with h
  refine ⟨_, _, h.symm, data, value, ttlMs, hread, rfl, rfl, ?_, fun copy hfile hformat => ?_⟩
  · rw [← h, length_append, diskRecord_length]
  · rw [← h] at hfile
    exact readIndexedEntry_record hformat hfile rfl rfl (by omega) (readIndexedEntry_ok hread)

/-- What the loop of a compaction has done: the keys in their order, each with a copy. -/
theorem compactLoop_ok {entries : List (Str × DiskEntry)} :
    ∀ {written next : List (Str × DiskEntry) × Bytes},
      shard.compactLoop entries written = .ok next →
        ∃ copies more, next = (written.1 ++ copies, written.2 ++ more) ∧
          copies.map Prod.fst = entries.map Prod.fst ∧
            ∀ p ∈ entries, ∃ de, (p.1, de) ∈ copies ∧ shard.Copied p de next.2 := by
  induction entries with
  | nil =>
    intro written next h
    injection h with h
    exact ⟨[], [], by simp [h], rfl, by simp⟩
  | cons p entries ih =>
    intro written next h
    unfold compactLoop at h
    split at h
    · cases h
    rename_i mid hmid
    obtain ⟨de, first, hstep, hcopied⟩ := compactStep_ok hmid
    obtain ⟨copies, more, hnext, hkeys, hall⟩ := ih h
    subst hstep
    refine ⟨(p.1, de) :: copies, first ++ more, by simp [hnext], by simp [hkeys], ?_⟩
    intro q hq
    rcases mem_cons.mp hq with rfl | hq
    · refine ⟨de, mem_cons_self, ?_⟩
      rw [hnext]
      exact hcopied.grow more
    · obtain ⟨de', hmem, hcopy⟩ := hall q hq
      exact ⟨de', mem_cons_of_mem _ hmem, hcopy⟩

/-- A compaction that succeeds has read every record, and copied it. -/
theorem compact_cases (shard : DiskShard) :
    shard.compact.1 = shard ∨ ∃ index file, shard.compact.1 = ⟨index, file, true, true⟩ ∧
      (index.map Prod.fst).Perm (shard.index.map Prod.fst) ∧
        ∀ p ∈ shard.index, ∃ de, (p.1, de) ∈ index ∧ shard.Copied p de file := by
  unfold compact
  split
  · exact Or.inl rfl
  split
  · exact Or.inl rfl
  rename_i index file hloop
  obtain ⟨copies, more, hnext, hkeys, hall⟩ := compactLoop_ok hloop
  have hperm := perm_insertionSort (fun a b : Str × DiskEntry => a.1 ≤ b.1) shard.index
  have hindex : index = copies := (Prod.mk.inj hnext).1
  subst hindex
  refine Or.inr ⟨index, file, rfl, ?_, fun p hp => hall p (hperm.mem_iff.mpr hp)⟩
  rw [hkeys]
  exact hperm.map Prod.fst

theorem Stores.compact (hwf : shard.WellFormed) (h : shard.Stores key ttlMs createdAt found) :
    shard.compact.1.Stores key ttlMs createdAt found := by
  rcases compact_cases shard with hsame | ⟨index, file, heq, hperm, hall⟩
  · rw [hsame]
    exact h
  · obtain ⟨de, hde, httl, hcreated, -, hfound⟩ := h
    obtain ⟨de', hmem, data, value, ttl, hold, httl', hcreated', hin, hnew⟩ :=
      hall (key, de) (mem_of_lookup hde)
    have hnodup : (index.map Prod.fst).Nodup := hperm.nodup_iff.mpr hwf.nodup
    rw [heq]
    cases found with
    | none =>
      obtain ⟨error, herror⟩ := hfound
      rw [hold] at herror
      cases herror
    | some value' =>
      obtain ⟨data', hread⟩ := hfound
      rw [hold] at hread
      cases hread
      exact ⟨de', lookup_of_mem hnodup hmem, httl', hcreated'.trans hcreated, hin, data,
        hnew _ rfl rfl⟩

/-! ### Steps and runs -/

theorem get_cases (shard : DiskShard) (key : Str) (now : Instant) :
    (shard.get key now).1 = shard ∨ (shard.get key now).1 = shard.remove key := by
  unfold get
  split
  · exact Or.inl rfl
  · split
    · exact Or.inr rfl
    · split <;> exact Or.inl rfl

theorem WellFormed.step (h : shard.WellFormed) (op : DiskOp) : (shard.step op).WellFormed := by
  have hremove : ∀ key, (shard.remove key).WellFormed := fun key =>
    ⟨nodup_erase h.nodup key, h.format⟩
  cases op with
  | put key dump createdAt => exact ⟨nodup_put h.nodup _ _, h.format⟩
  | get key now =>
    rcases get_cases shard key now with hsame | hremoved
    · rw [DiskShard.step, hsame]
      exact h
    · rw [DiskShard.step, hremoved]
      exact hremove key
  | remove key => exact hremove key
  | compact =>
    rw [DiskShard.step]
    rcases compact_cases shard with hsame | ⟨index, file, heq, hperm, -⟩
    · rw [hsame]
      exact h
    · rw [heq]
      exact ⟨hperm.nodup_iff.mpr h.nodup, rfl⟩

/-- **The frame.**  An operation that does not name the key keeps what is stored for it. -/
theorem Stores.step (hwf : shard.WellFormed) {op : DiskOp} (hother : op.key? ≠ some key)
    (h : shard.Stores key ttlMs createdAt found) :
    (shard.step op).Stores key ttlMs createdAt found := by
  have hremove : ∀ other, key ≠ other → (shard.remove other).Stores key ttlMs createdAt found :=
    fun other hne => h.grow (append_nil _).symm rfl (lookup_erase_of_ne _ hne)
  cases op with
  | put other dump created =>
    have hne : key ≠ other := fun heq => hother (by rw [heq]; rfl)
    exact h.grow rfl rfl (lookup_put_of_ne _ _ hne)
  | get other now =>
    have hne : key ≠ other := fun heq => hother (by rw [heq]; rfl)
    rcases get_cases shard other now with hsame | hremoved
    · rw [DiskShard.step, hsame]
      exact h
    · rw [DiskShard.step, hremoved]
      exact hremove other hne
  | remove other => exact hremove other fun heq => hother (by rw [heq]; rfl)
  | compact => exact h.compact hwf

/-- Whole runs on other keys, compactions included. -/
theorem stores_run (hwf : shard.WellFormed) (h : shard.Stores key ttlMs createdAt found)
    {ops : List DiskOp} (hother : ∀ op ∈ ops, op.key? ≠ some key) :
    (Runs.run DiskShard.step shard ops).Stores key ttlMs createdAt found := by
  induction ops generalizing shard with
  | nil => exact h
  | cons op ops ih =>
    exact ih (hwf.step op) (h.step hwf (hother op mem_cons_self))
      fun other hmem => hother other (mem_cons_of_mem op hmem)

/-- **A shard returns what was put**, with what is left of its lifetime, after any puts, reads,
removals and compactions that do not name the key. -/
theorem get_put_run (hwf : shard.WellFormed) {dump : DumpEntry}
    (hshort : (writeSingleEntry dump).length + 8 < 2 ^ 32)
    (hread : diskDialect.readEntry .optional (writeSingleEntry dump) =
      .ok ((key, storedTtl dump.ttlMs, value), [])) (createdAt now : Instant)
    {ops : List DiskOp} (hother : ∀ op ∈ ops, op.key? ≠ some key) :
    ((Runs.run step (shard.put key dump createdAt) ops).get key now).2 =
      let de : DiskEntry := ⟨0, 0, storedTtl dump.ttlMs, createdAt⟩
      .ok (if de.isExpired now then none
        else some (value, if 0 < de.remainingTtlMs now then
          some (de.remainingTtlMs now).toInt.toNat else none)) := by
  have hput := put_stores hwf.format hshort hread createdAt
  obtain ⟨⟨_, _, _, _⟩, hlookup, rfl, rfl, -, data, hdata⟩ :=
    stores_run (hwf.step (.put key dump createdAt)) hput hother
  simp only [step] at hlookup hdata
  simp only [get, hlookup, hdata]
  split
  · exact (congrArg Except.ok (if_pos ‹_›)).symm
  · exact (congrArg Except.ok (if_neg ‹_›)).symm

theorem get_put_run_list :
    ((Runs.run step (put ⟨[], dataMagic, true, true⟩ ['k'] ⟨['k'], .list [[1]], 0⟩ 0)
      [.remove ['j'], .compact]).get ['k'] 5).2 = .ok (some (.list [[1]], none)) :=
  get_put_run ⟨by simp, by rfl⟩ (by decide) (by rfl) 0 5 (by decide)

end DiskShard

/-! ## Which records are read back -/

section ReadBack

theorem shortFits_writeText : ShortFits (2 ^ 32) writeText diskDialect.FitsText :=
  fun s hshort => shortFits_writeBytes (utf8 s) hshort

theorem shortFits_trivial {α : Type} (write : α → Bytes) :
    ShortFits (2 ^ 32) write fun _ => True := fun _ _ => trivial

theorem writeBytes_pos (raw : Bytes) : 0 < (writeBytes raw).length := by
  simp only [writeBytes, length_append, leBytes_length]
  omega

theorem writePair_pos {α β : Type} {write : α → Bytes} {write' : β → Bytes}
    (h : ∀ value, 0 < (write value).length) (p : α × β) :
    0 < (writePair write write' p).length := by
  have hfirst := h p.1
  simp only [writePair, length_append]
  omega

theorem writeText_pos (s : Str) : 0 < (writeText s).length := writeBytes_pos (utf8 s)

/-- A list of items that start with a text. -/
theorem shortFits_textList {β : Type} {write : β → Bytes} {Fits : β → Prop}
    (h : ShortFits (2 ^ 32) write Fits) :
    ShortFits (2 ^ 32) (writeList (writePair writeText write))
      (diskDialect.FitsList fun p => diskDialect.FitsText p.1 ∧ Fits p.2) :=
  (shortFits_writeText.pair h).list (writePair_pos writeText_pos)

theorem shortFits_fields :
    ShortFits (2 ^ 32) (writeList writeField) (diskDialect.FitsList diskDialect.FitsField) :=
  shortFits_textList shortFits_writeBytes

theorem shortFits_consumers : ShortFits (2 ^ 32) (writeList writeConsumer)
    (diskDialect.FitsList diskDialect.FitsConsumer) :=
  shortFits_textList (shortFits_writeText.list writeText_pos)

theorem shortFits_pending : ShortFits (2 ^ 32) (writeList writePending)
    (diskDialect.FitsList fun p => diskDialect.FitsText p.1 ∧ diskDialect.FitsText p.2.1 ∧ True) :=
  shortFits_textList (shortFits_writeText.pair (shortFits_trivial _))

/-- The groups of a stream whose delivery counts fit four bytes. -/
theorem shortFits_groups {groups : List (Str × ConsumerGroup)}
    (hshort : (writeList writeGroup
      ((groups.map fun p => (p.1, p.2.saturated)).map dumpGroup)).length < 2 ^ 32) :
    diskDialect.FitsList diskDialect.FitsGroup
      ((groups.map fun p => (p.1, p.2.saturated)).map dumpGroup) := by
  have hgroups := shortFits_textList (shortFits_writeText.pair
    (shortFits_consumers.pair shortFits_pending)) _ hshort
  refine ⟨hgroups.1, fun dump hdump => ?_⟩
  obtain ⟨hname, hlast, hconsumers, hpending⟩ := hgroups.2 dump hdump
  refine ⟨hname, hlast, hconsumers, hpending.1, fun p hp => ?_⟩
  obtain ⟨htext, hconsumer, -⟩ := hpending.2 p hp
  obtain ⟨q, hq, rfl⟩ := mem_map.mp hdump
  obtain ⟨group, -, rfl⟩ := mem_map.mp hq
  obtain ⟨r, hr, rfl⟩ := mem_map.mp hp
  obtain ⟨entry, -, rfl⟩ := mem_map.mp hr
  have hcount := saturated_deliveryCount entry.2
  refine ⟨htext, hconsumer, ?_⟩
  dsimp only [dumpPending]
  omega

/-- A value whose bytes are fewer than `2 ^ 32` has no part that is too long. -/
theorem fits_of_short {value : StoreValue} (hvalid : value.Valid)
    (hshort : (writeValue (storeValueToDumpValue value.saturated)).length < 2 ^ 32) :
    diskDialect.Fits (storeValueToDumpValue value.saturated) := by
  cases value with
  | str value => exact shortFits_writeBytes _ hshort
  | list items => exact shortFits_writeBytes.list writeBytes_pos _ hshort
  | hash data =>
    simp only [StoreValue.saturated, storeValueToDumpValue, writeValue, length_append] at hshort
    refine ⟨shortFits_fields _ (by omega), ?_⟩
    by_cases hempty : data.expiries = []
    · rw [hempty]
      exact Dialect.fitsList_nil _
    · have hne : data.expiries.isEmpty = false := by simpa using hempty
      rw [hne] at hshort
      exact shortFits_textList (shortFits_trivial writeI64) _ (by simp at hshort ⊢; omega)
  | set members => exact shortFits_writeText.list writeText_pos _ hshort
  | sortedSet scores => exact shortFits_textList (shortFits_trivial writeU64) _ hshort
  | stream data =>
    simp only [StoreValue.saturated, storeValueToDumpValue, writeValue, length_append] at hshort
    have hid : diskDialect.FitsText data.lastId.text := shortFits_writeText _ (by omega)
    have hentries := shortFits_textList shortFits_fields (data.entries.map dumpStreamEntry)
      (lt_of_le_of_lt (by unfold writeStreamEntry; omega) hshort)
    exact ⟨hid, hentries, shortFits_groups (by omega)⟩
  | vector data metadata encrypted =>
    simp only [StoreValue.saturated, storeValueToDumpValue, writeValue, length_append] at hshort
    have hword : ∀ word : UInt32, 0 < (writeWord word).length := by simp [writeWord]
    have hdata := (shortFits_trivial writeWord).list hword data (by omega)
    refine ⟨fun _ => hdata.1, fun text htext => ?_⟩
    obtain rfl : metadata = some text := htext
    simp only [writeMetadata, length_cons] at hshort
    exact shortFits_writeText _ (by omega)
  | hyperLogLog registers =>
    have hlen : registers.length = 16384 := hvalid.1
    refine ⟨hvalid, ?_⟩
    show registers.length < 2 ^ 32
    omega
  | timeSeries samples retention labels =>
    simp only [StoreValue.saturated, storeValueToDumpValue, writeValue, length_append] at hshort
    have hsample : ∀ p : Int64 × UInt64, 0 < (writePair writeI64 writeU64 p).length := by
      simp [writePair, writeU64]
    exact ⟨((shortFits_trivial (writePair writeI64 writeU64)).list hsample samples
        (by omega)).1,
      shortFits_textList shortFits_writeText _ (by omega)⟩

/-- **Short records are read back**, with the delivery counts their fields can hold. -/
theorem readEntry_writeSingleEntry {name : Str} {value : StoreValue} {ttlMs : Int64}
    (hvalid : value.Valid) (hplain : ∀ data metadata, value ≠ .vector data metadata true)
    (hshort : (writeSingleEntry ⟨name, storeValueToDumpValue value, ttlMs⟩).length < 2 ^ 32) :
    diskDialect.readEntry .optional (writeSingleEntry ⟨name, storeValueToDumpValue value, ttlMs⟩) =
      .ok ((name, storedTtl ttlMs, storeValueToDumpValue value.saturated), []) := by
  have hsame : writeSingleEntry ⟨name, storeValueToDumpValue value, ttlMs⟩ =
      writeEntry name (storedTtl ttlMs) (storeValueToDumpValue value.saturated) := by
    simp only [writeSingleEntry, writeEntry, dumpType_saturated, writeValue_saturated]
  rw [hsame] at hshort ⊢
  simp only [writeEntry, length_cons, length_append] at hshort
  have hclear : ∀ data metadata, storeValueToDumpValue value.saturated ≠
      .vector data metadata true := by
    cases value <;> simp_all [StoreValue.saturated, storeValueToDumpValue]
  have hread := @Dialect.reads_readEntry diskDialect .optional (by decide) name
    (shortFits_writeText name (by omega)) (storedTtl ttlMs) _
    (fits_of_short hvalid (by omega)) hclear []
  rwa [append_nil] at hread

/-- A record does not say that a vector was sealed. -/
theorem readEntry_vector {data : List UInt32} {metadata : Option Str} {ttlMs : Int64} {key : Str}
    {entry : Str × Int64 × DumpValue} {input rest : Bytes}
    (h : diskDialect.readEntry .optional
      (writeEntry key ttlMs (.vector data metadata true) ++ input) = .ok (entry, rest)) :
    entry.2.2 ≠ .vector data metadata true := by
  have hany {α : Type} (read : Reader α) : Yields read fun _ => True := fun _ _ _ _ => trivial
  have hvector : Yields diskDialect.readVector (· ≠ .vector data metadata true) :=
    (hany _).bind fun _ _ => (hany _).bind fun _ _ => Yields.pure (by simp)
  obtain ⟨⟨_, _⟩, -, h⟩ := bind_eq_ok.mp h
  obtain ⟨⟨_, _⟩, -, h⟩ := bind_eq_ok.mp h
  obtain ⟨⟨value, _⟩, hvalue, h⟩ := bind_eq_ok.mp h
  cases h
  exact hvector _ _ _ hvalue

/-- **What an entry has to be to be read back**, key, lifetime and value, with nothing left over:
no length and no count reaches `2 ^ 32`, no vector is sealed, and a lifetime is positive or `-1`
for none. -/
theorem entry_reads_back_iff (entry : DumpEntry) :
    Reads (diskDialect.readEntry .optional) (writeSingleEntry entry)
        (entry.key, entry.ttlMs, entry.value) ↔
      diskDialect.FitsText entry.key ∧ diskDialect.Fits entry.value ∧
        (∀ data metadata, entry.value ≠ .vector data metadata true) ∧
          (0 < entry.ttlMs ∨ entry.ttlMs = -1) := by
  have hstored : storedTtl entry.ttlMs = entry.ttlMs ↔ 0 < entry.ttlMs ∨ entry.ttlMs = -1 := by
    unfold storedTtl
    split
    · simp [*]
    · simp [*, eq_comm]
  have hreads (hkey : diskDialect.FitsText entry.key) (hfits : diskDialect.Fits entry.value)
      (hclear : ∀ data metadata, entry.value ≠ .vector data metadata true) :
      Reads (diskDialect.readEntry .optional) (writeSingleEntry entry)
        (entry.key, storedTtl entry.ttlMs, entry.value) :=
    Dialect.reads_readEntry (by decide) hkey _ hfits hclear
  rw [← hstored]
  constructor
  · intro h
    obtain ⟨hkey, hfits⟩ := Dialect.yields_readEntry .optional _ _ _ (h [])
    have hclear : ∀ data metadata, entry.value ≠ .vector data metadata true := by
      intro data metadata hvalue
      have hread := h []
      rw [writeSingleEntry, hvalue] at hread
      exact readEntry_vector hread rfl
    have heq := (hreads hkey hfits hclear []).symm.trans (h [])
    exact ⟨hkey, hfits, hclear, by simpa using heq⟩
  · intro ⟨hkey, hfits, hclear, httl⟩
    have hread := hreads hkey hfits hclear
    rwa [httl] at hread

/-- A lifetime that ends now is read as none. -/
theorem ending_entry_not_read_back :
    ¬ Reads (diskDialect.readEntry .optional) (writeSingleEntry ⟨['k'], .str [], 0⟩)
      (['k'], 0, .str []) := by
  intro h
  have hread : diskDialect.readEntry .optional (writeSingleEntry ⟨['k'], .str [], 0⟩) =
      .ok ((['k'], -1, .str []), []) := by rfl
  cases (h []).symm.trans hread

end ReadBack

end Lux
