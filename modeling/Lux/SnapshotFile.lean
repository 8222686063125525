import Lux.DumpCodec
import Lux.Envelope
import Lux.Wal

/-!
# Snapshot files and DUMP blobs

A snapshot of the current format is an envelope around its journal checkpoints
and its entries; a `DUMP` blob is an envelope around one entry. The loader of a
snapshot streams: it stores every entry as soon as it has read it. What keeps a
damaged file from being loaded in part is that the envelope is verified in front
of the first checkpoint and the first entry.

`damage_rejected` is the result: a damaged copy fails to load and leaves the
store, its entries and its recovery checkpoints, as it was. SHA-256 is a
parameter of which only the length of its digests is assumed, and the hypothesis
that the two bodies at hand do not collide; sealing of vectors and the loader of
the text files in front of format 1 are parameters too.
-/

namespace Lux

open ByteCodec StdText KeyedList Envelope List

/-! ## Clock readings -/

/-- `now_epoch_ms`: the wall clock, in milliseconds. -/
def nowEpochMs (now : Instant) : UInt64 := UInt64.ofNat (now / nanosPerMs)

/-- `i64::saturating_sub`. -/
def saturatingSub (a b : Int64) : Int := max (-(2 ^ 63)) (min (2 ^ 63 - 1) (a.toInt - b.toInt))

/-! ## Field readers of a snapshot -/

def maxSnapshotBytes : Nat := 512 * 1024 * 1024

def maxSnapshotItems : Nat := 64 * 1024 * 1024

def maxWalCheckpoints : Nat := 1024

namespace Snapshot

def readBytes : Reader Bytes := do
  let len ← readU32
  if maxSnapshotBytes < len then
    refuse .invalidData "snapshot byte string length exceeds maximum"
  else
    readExact len

def readCount (label : String) : Reader Nat := do
  let count ← readU32
  if maxSnapshotItems < count then
    refuse .invalidData ("snapshot " ++ label ++ " count exceeds maximum")
  else
    pure count

def readSizedCount (label : String) (itemSize : Nat) : Reader Nat := do
  let count ← readCount label
  if maxSnapshotBytes < count * itemSize then
    refuse .invalidData ("snapshot " ++ label ++ " byte size exceeds maximum")
  else
    pure count

theorem inverts_readBytes :
    Inverts readBytes writeBytes fun raw => raw.length ≤ maxSnapshotBytes where
  reads raw hfits := by
    have hsmall : raw.length < 2 ^ 32 := lt_of_le_of_lt hfits (by decide)
    refine (inverts_readU32.reads raw.length hsmall).bind ?_
    rw [if_neg (not_lt.mpr hfits)]
    exact (inverts_readExact raw.length).reads raw rfl
  yields := by
    refine inverts_readU32.yields.bind fun len _ =>
      Yields.ite (fun _ => Yields.refuse) fun hlen => ?_
    intro input raw rest hread
    rw [(inverts_readExact len).yields input raw rest hread]
    exact not_lt.mp hlen

theorem inverts_readCount (label : String) :
    Inverts (readCount label) (leBytes 4) (· ≤ maxSnapshotItems) := by
  refine (inverts_readU32.guarded _ _).congr fun count => ?_
  unfold maxSnapshotItems
  omega

theorem inverts_readSizedCount (label : String) (itemSize : Nat) :
    Inverts (readSizedCount label itemSize) (leBytes 4) fun count =>
      count ≤ maxSnapshotItems ∧ count * itemSize ≤ maxSnapshotBytes := by
  refine ((inverts_readCount label).guarded _ _).congr fun count => ?_
  rw [not_lt]

theorem inverts_readText :
    Inverts (readText readBytes) writeText fun s => (utf8 s).length ≤ maxSnapshotBytes :=
  @Inverts.text readBytes (· ≤ maxSnapshotBytes) inverts_readBytes

end Snapshot

/-! ## Sealed vectors -/

/-- `encrypt_vector` and `decrypt_vector` of the keyring at hand. -/
structure VectorCrypto where
  encryptVector : Str → List UInt32 → Except String Bytes
  decryptVector : Str → Bytes → Except String (List UInt32)
  decrypt_encrypt : ∀ key data sealedText, encryptVector key data = .ok sealedText →
    decryptVector key sealedText = .ok data
  /-- The length of a sealed text fits its four-byte field. -/
  short : ∀ key data sealedText, encryptVector key data = .ok sealedText →
    sealedText.length < 2 ^ 32

/-- An encrypted vector: the sealed payload, then the metadata. -/
def readSealedVector (crypto : VectorCrypto) (key : Str) : Reader DumpValue := do
  let sealedText ← Snapshot.readBytes
  let metadata ← readOptional (readText Snapshot.readBytes)
  match crypto.decryptVector key sealedText with
  | .ok data => pure (.vector data metadata true)
  | .error message => refuse .other message

/-- The field readers of a snapshot. -/
def snapshotDialect (crypto : VectorCrypto) : Dialect where
  readBytes := Snapshot.readBytes
  readCount := Snapshot.readCount
  readSizedCount := Snapshot.readSizedCount
  readSealed := readSealedVector crypto
  FitsBytes := (· ≤ maxSnapshotBytes)
  FitsCount := (· ≤ maxSnapshotItems)
  FitsSized itemSize count := count ≤ maxSnapshotItems ∧ count * itemSize ≤ maxSnapshotBytes
  empty := Nat.zero_le _
  bytes := Snapshot.inverts_readBytes
  count := Snapshot.inverts_readCount
  sized := Snapshot.inverts_readSizedCount
  isSealed key := by
    refine Snapshot.inverts_readBytes.yields.bind fun sealedText _ =>
      (yields_readOptional Snapshot.inverts_readText.yields).bind fun metadata hmeta => ?_
    cases crypto.decryptVector key sealedText with
    | ok data => exact Yields.pure ⟨data, metadata, rfl, hmeta⟩
    | error message => exact Yields.refuse

/-! ## Writing -/

/-- Formats 1 to 6 of a snapshot. -/
def snapshotHeader (version : UInt8) : Bytes := [0x4c, 0x55, 0x58, version]

def dumpHeader : Bytes := [0x4c, 0x58, 0x44, 0x01]

/-- The lifetime that is written: an absolute deadline, or `-1` for none. -/
def absoluteTtl (now : Instant) (ttlMs : Int64) : Int64 :=
  if 0 < ttlMs then
    (UInt64.ofNat (min ((nowEpochMs now).toNat + ttlMs.toUInt64.toNat) (2 ^ 64 - 1))).toInt64
  else
    -1

/-- The type byte and the fields of a value; an encrypted vector is sealed. -/
def sealValue (crypto : VectorCrypto) (key : Str) (value : DumpValue) : IoResult (UInt8 × Bytes) :=
  match value with
  | .vector data metadata true =>
    match crypto.encryptVector key data with
    | .error message => .error ⟨.other, message⟩
    | .ok sealedText => .ok (tag 'W', writeBytes sealedText ++ writeMetadata metadata)
  | value => .ok (dumpType value, writeValue value)

/-- One entry of `save_binary_entries`, with the instant at which it is written. -/
def saveEntry (crypto : VectorCrypto) (p : DumpEntry × Instant) : IoResult Bytes :=
  match sealValue crypto p.1.key p.1.value with
  | .error error => .error error
  | .ok (typeByte, fields) =>
    .ok (typeByte :: (writeText p.1.key ++
      (writeI64 (absoluteTtl p.2 p.1.ttlMs) ++ fields)))

def writeCheckpoint (p : Str × WalCheckpoint) : IoResult Bytes :=
  match p.2.successorGeneration with
  | none =>
    .error ⟨.invalidInput, "new snapshots require an authorized successor WAL generation"⟩
  | some successor =>
    .ok (writeText p.1 ++ (p.2.generation.1 ++
      (writeU64 (UInt64.ofNat p.2.offset) ++ successor.1)))

/-- `save_snapshot_binary`. -/
def saveSnapshotBinary (hash : Hash) (crypto : VectorCrypto)
    (entries : List (DumpEntry × Instant)) (checkpoints : List (Str × WalCheckpoint)) :
    IoResult Bytes :=
  if 2 ^ 32 ≤ checkpoints.length then
    .error ⟨.invalidInput, "too many WAL checkpoints"⟩
  else do
    let head ← writeMany writeCheckpoint checkpoints
    let tail ← writeMany (saveEntry crypto) entries
    let body := leBytes 4 checkpoints.length ++ (head ++ tail)
    if 2 ^ 64 ≤ body.length then
      .error ⟨.invalidData, "snapshot length overflow"⟩
    else
      .ok (envelope hash (snapshotHeader 6) body)

/-- `encode_dump_blob`: one entry in format 3, in an envelope. -/
def encodeDumpBlob (hash : Hash) (crypto : VectorCrypto) (entry : DumpEntry) (now : Instant) :
    IoResult Bytes := do
  let fields ← saveEntry crypto (entry, now)
  let payload := snapshotHeader 3 ++ fields
  if 2 ^ 64 ≤ payload.length then
    .error ⟨.invalidInput, "DUMP payload is too large"⟩
  else
    .ok (envelope hash dumpHeader payload)

/-! ## The store a file is loaded into -/

structure Entry where
  value : StoreValue
  expiresAt : Option Instant
  deriving DecidableEq

structure MemoryStore where
  data : List (Bytes × Entry)
  recoveryWalCheckpoints : List (Str × WalCheckpoint)
  deriving DecidableEq

/-- The clock readings made for one entry: when its lifetime is compared with the
wall clock, when its stream groups are built, and when its deadline is set. -/
structure LoadClock where
  compared : Instant
  groups : Instant
  stored : Instant
  deriving DecidableEq, Repr

namespace MemoryStore

/-- `load_entry`, with a lifetime in milliseconds. -/
def loadEntry (store : MemoryStore) (clock : LoadClock) (key : Str) (value : DumpValue)
    (ttl : Option Nat) : MemoryStore :=
  { store with
    data := put store.data (utf8 key)
      ⟨loadValue clock.groups value, ttl.map fun ms => clock.stored + ms * nanosPerMs⟩ }

/-- `stage_expired_recovery_entry`, with the sentinel of the recovery. -/
def stageExpiredRecoveryEntry (store : MemoryStore) (clock : LoadClock) (sentinel : Instant)
    (key : Str) (value : DumpValue) : MemoryStore :=
  { store with
    data := put store.data (utf8 key) ⟨loadValue clock.groups value, some sentinel⟩ }

end MemoryStore

/-! ## Reading -/

/-- The lifetime an entry has left, and whether its deadline has passed. -/
def remainingLifetime (absolute : Bool) (now : Instant) (ttlMs : Int64) : Option Nat × Bool :=
  if ttlMs ≤ 0 then (none, false)
  else if absolute then
    let remaining := saturatingSub ttlMs (nowEpochMs now).toInt64
    if remaining ≤ 0 then (none, true) else (some remaining.toNat, false)
  else (some ttlMs.toInt.toNat, false)

/-- How a format is read and what is done with what was read. -/
structure LoadMode where
  groups : GroupsSection
  absoluteTtl : Bool
  /-- The sentinel under which expired entries are kept, during a recovery. -/
  preserveExpired : Option Instant
  deriving DecidableEq, Repr

/-- What the loop of `parse_binary` does with an entry it has read. -/
def applyEntry (mode : LoadMode) (clock : LoadClock) (store : MemoryStore)
    (entry : Str × Int64 × DumpValue) : MemoryStore :=
  let (ttl, expired) := remainingLifetime mode.absoluteTtl clock.compared entry.2.1
  if expired then
    match mode.preserveExpired with
    | some sentinel => store.stageExpiredRecoveryEntry clock sentinel entry.1 entry.2.2
    | none => store
  else
    store.loadEntry clock entry.1 entry.2.2 ttl

/-- The loop of `parse_binary`, from the `index`-th entry on. Every entry takes at least
one byte, so that the length of the input bounds the number of passes. -/
def loadLoop (d : Dialect) (mode : LoadMode) (clock : Nat → LoadClock) :
    Nat → Nat → Bytes → MemoryStore → MemoryStore × IoResult Unit
  | 0, _, _, store => (store, .ok ())
  | fuel+1, index, input, store =>
    if input.isEmpty then
      (store, .ok ())
    else
      match d.readEntry mode.groups input with
      | .error error => (store, .error error)
      | .ok (entry, rest) =>
        loadLoop d mode clock fuel (index + 1) rest
          (applyEntry mode (clock index) store entry)

def loadBinary (d : Dialect) (mode : LoadMode) (clock : Nat → LoadClock) (store : MemoryStore)
    (input : Bytes) : MemoryStore × IoResult Unit :=
  loadLoop d mode clock input.length 0 input store

/-- `verify_snapshot_body`, with the position at which the body starts. -/
def verifySnapshotBody (hash : Hash) (start : Nat) (rest : Bytes) (bodyLen : Nat)
    (expected : Bytes) : IoResult Unit :=
  if 2 ^ 64 ≤ start + bodyLen then
    .error ⟨.invalidData, "snapshot body length overflow"⟩
  else if bodyLen ≠ rest.length then
    .error ⟨.invalidData, "snapshot body length does not match the file"⟩
  else if hash.digest rest ≠ expected then
    .error ⟨.invalidData, "snapshot SHA-256 mismatch"⟩
  else
    .ok ()

/-- The verified body behind the magic number of formats 5 and 6. -/
def openBody (hash : Hash) : Reader Unit := fun input => do
  let (bodyLen, input) ← readU64 input
  let (expected, input) ← readExact digestLen input
  let () ← verifySnapshotBody hash (4 + 8 + digestLen) input bodyLen.toNat expected
  .ok ((), input)

def readGenerationField : Reader Generation := do
  let raw ← readExact walGenerationLen
  if h : raw.length = walGenerationLen then
    pure ⟨raw, h⟩
  else
    refuse .unexpectedEof "failed to fill whole buffer"

/-- The characters of a checkpoint name: ASCII letters and digits, `_` and `-`. -/
def isCheckpointChar (c : Char) : Bool :=
  ('a' ≤ c && c ≤ 'z') || ('A' ≤ c && c ≤ 'Z') || ('0' ≤ c && c ≤ '9') || c == '_' || c == '-'

def readSuccessor (current : Generation) : Reader Generation := do
  let successor ← readGenerationField
  if successor = legacyWalGeneration then
    refuse .invalidData "snapshot contains a zero successor WAL generation"
  else if successor = current then
    refuse .invalidData "snapshot successor WAL generation repeats its current generation"
  else
    pure successor

/-- One pass of the loop of `read_wal_checkpoints`. -/
def readCheckpoint (hasSuccessor : Bool) (read : List (Str × WalCheckpoint)) :
    Reader (List (Str × WalCheckpoint)) := do
  let name ← readText Snapshot.readBytes
  if name.isEmpty || !name.all isCheckpointChar then
    refuse .invalidData "snapshot contains an invalid WAL checkpoint name"
  else
    let generation ← readGenerationField
    let offset ← readU64
    let successor ←
      if hasSuccessor then some <$> readSuccessor generation else pure none
    if (read.lookup name).isSome then
      refuse .invalidData "snapshot contains duplicate WAL checkpoints"
    else
      pure (read ++ [(name, ⟨generation, offset.toNat, successor⟩)])

def readCheckpoints (hasSuccessor : Bool) :
    Nat → List (Str × WalCheckpoint) → Reader (List (Str × WalCheckpoint))
  | 0, read => pure read
  | count+1, read => do
      let read ← readCheckpoint hasSuccessor read
      readCheckpoints hasSuccessor count read

/-- `read_wal_checkpoints`. -/
def readWalCheckpoints (hasSuccessor : Bool) : Reader (List (Str × WalCheckpoint)) := do
  let count ← readU32
  if maxWalCheckpoints < count then
    refuse .invalidData "snapshot WAL checkpoint count exceeds maximum"
  else
    let checkpoints ← readCheckpoints hasSuccessor count []
    if hasSuccessor && (checkpoints.lookup (str "global")).isNone then
      refuse .invalidData "journal-bound snapshot is missing the global WAL checkpoint"
    else
      pure checkpoints

/-- What the formats share behind their checks: the checkpoints are installed, then the
entries are loaded one by one. -/
def loadCheckpointed (d : Dialect) (clock : Nat → LoadClock) (preserve : Option Instant)
    (hasSuccessor : Bool) (store : MemoryStore) (body : Bytes) : MemoryStore × IoResult Unit :=
  match readWalCheckpoints hasSuccessor body with
  | .error error => (store, .error error)
  | .ok (checkpoints, entries) =>
    loadBinary d ⟨.present, true, preserve⟩ clock
      { store with recoveryWalCheckpoints := checkpoints } entries

/-- The formats in front of the checkpoints. -/
def loadPlain (d : Dialect) (clock : Nat → LoadClock) (mode : LoadMode) (store : MemoryStore)
    (entries : Bytes) : MemoryStore × IoResult Unit :=
  loadBinary d mode clock { store with recoveryWalCheckpoints := [] } entries

/-- What a snapshot is loaded with: the digest, the keyring, and the loader of the text
files in front of format 1. -/
structure Loader where
  hash : Hash
  crypto : VectorCrypto
  loadLegacy : MemoryStore → Bytes → MemoryStore × IoResult Unit

namespace Loader

variable (loader : Loader) (clock : Nat → LoadClock)

def dialect : Dialect := snapshotDialect loader.crypto

/-- Formats 5 and 6: nothing is installed unless the body is verified. -/
def loadVerified (preserve : Option Instant) (hasSuccessor : Bool) (store : MemoryStore)
    (input : Bytes) : MemoryStore × IoResult Unit :=
  match openBody loader.hash input with
  | .error error => (store, .error error)
  | .ok ((), body) => loadCheckpointed loader.dialect clock preserve hasSuccessor store body

/-- `load_from_reader`. -/
def loadFromReader (preserve : Option Instant) (store : MemoryStore) (file : Bytes) :
    MemoryStore × IoResult Unit :=
  if file.length < 4 then
    (store, .error ⟨.invalidData, "snapshot is truncated before its header"⟩)
  else
    let header := file.take 4
    let rest := file.drop 4
    if header = snapshotHeader 6 then loader.loadVerified clock preserve true store rest
    else if header = snapshotHeader 5 then loader.loadVerified clock preserve false store rest
    else if header = snapshotHeader 4 then
      loadCheckpointed loader.dialect clock preserve false store rest
    else if header = snapshotHeader 3 then
      loadPlain loader.dialect clock ⟨.present, true, preserve⟩ store rest
    else if header = snapshotHeader 2 then
      loadPlain loader.dialect clock ⟨.present, false, preserve⟩ store rest
    else if header = snapshotHeader 1 then
      loadPlain loader.dialect clock ⟨.absent, false, preserve⟩ store rest
    else
      loader.loadLegacy { store with recoveryWalCheckpoints := [] } file

/-- `verified_dump_payload`: blobs without an envelope predate it. -/
def verifiedDumpPayload (blob : Bytes) : IoResult Bytes :=
  if blob.take 4 ≠ dumpHeader then
    .ok blob
  else if blob.length < 4 + 8 + digestLen then
    .error ⟨.invalidData, "truncated DUMP integrity envelope"⟩
  else
    let payloadLen := ofLeBytes ((blob.drop 4).take 8)
    let payload := blob.drop (4 + 8 + digestLen)
    if 2 ^ 64 ≤ 4 + 8 + digestLen + payloadLen then
      .error ⟨.invalidData, "DUMP payload length overflow"⟩
    else if blob.length ≠ 4 + 8 + digestLen + payloadLen then
      .error ⟨.invalidData, "DUMP payload length mismatch"⟩
    else if loader.hash.digest payload ≠ (blob.drop 12).take digestLen then
      .error ⟨.invalidData, "DUMP payload SHA-256 mismatch"⟩
    else
      .ok payload

/-- `decode_dump_blob_value`: the value and the embedded lifetime, without storing them. -/
def decodeDumpBlobValue (blob : Bytes) : IoResult (DumpValue × Int64) := do
  let payload ← loader.verifiedDumpPayload blob
  let (header, cursor) ← readExact 4 payload
  let groups ←
    (if header = snapshotHeader 3 ∨ header = snapshotHeader 2 then .ok GroupsSection.present
      else if header = snapshotHeader 1 then .ok .absent
      else .error ⟨.invalidData, "RESTORE payload is not a lux dump"⟩ :
        IoResult GroupsSection)
  let ((_, ttlMs, value), _) ← loader.dialect.readEntry groups cursor
  .ok (value, ttlMs)

/-- `decode_dump_blob`: the entry is stored under its own key. -/
def decodeDumpBlob (store : MemoryStore) (blob : Bytes) : MemoryStore × IoResult Unit :=
  match loader.verifiedDumpPayload blob with
  | .error error => (store, .error error)
  | .ok payload =>
    match readExact 4 payload with
    | .error error => (store, .error error)
    | .ok (header, cursor) =>
      if header = snapshotHeader 3 then
        loadBinary loader.dialect ⟨.present, true, none⟩ clock store cursor
      else if header = snapshotHeader 2 then
        loadBinary loader.dialect ⟨.present, false, none⟩ clock store cursor
      else if header = snapshotHeader 1 then
        loadBinary loader.dialect ⟨.absent, false, none⟩ clock store cursor
      else
        (store, .error ⟨.invalidData, "LXRESTORE payload is not a lux snapshot"⟩)

end Loader

/-! ## Damage -/

/-- A file that was written is an envelope around a body of less than `2 ^ 64` bytes. -/
theorem saveSnapshotBinary_ok {hash : Hash} {crypto : VectorCrypto}
    {entries : List (DumpEntry × Instant)} {checkpoints : List (Str × WalCheckpoint)}
    {file : Bytes} (h : saveSnapshotBinary hash crypto entries checkpoints = .ok file) :
    ∃ head tail, writeMany writeCheckpoint checkpoints = .ok head ∧
      writeMany (saveEntry crypto) entries = .ok tail ∧ checkpoints.length < 2 ^ 32 ∧
      (leBytes 4 checkpoints.length ++ (head ++ tail)).length < 2 ^ 64 ∧
      file = envelope hash (snapshotHeader 6) (leBytes 4 checkpoints.length ++ (head ++ tail)) := by
  unfold saveSnapshotBinary at h
  split at h
  · cases h
  rename_i hcount
  obtain ⟨head, hhead, h⟩ := bind_eq_ok.mp h
  obtain ⟨tail, htail, h⟩ := bind_eq_ok.mp h
  dsimp only at h
  split at h
  · cases h
  · rename_i hsize
    injection h with h
    exact ⟨head, tail, hhead, htail, not_le.mp hcount, not_le.mp hsize, h.symm⟩

theorem encodeDumpBlob_ok {hash : Hash} {crypto : VectorCrypto} {entry : DumpEntry}
    {now : Instant} {blob : Bytes} (h : encodeDumpBlob hash crypto entry now = .ok blob) :
    ∃ payload, payload.length < 2 ^ 64 ∧ blob = envelope hash dumpHeader payload := by
  obtain ⟨fields, -, h⟩ := bind_eq_ok.mp h
  dsimp only at h
  split at h
  · cases h
  · rename_i hsize
    injection h with h
    exact ⟨snapshotHeader 3 ++ fields, not_le.mp hsize, h.symm⟩

section Rejection

variable (loader : Loader) (clock : Nat → LoadClock) {len digest body : Bytes} {blob : Bytes}

/-- A head of the right size whose length or digest is wrong is not opened. -/
theorem openBody_bad {hash : Hash} (hlen : len.length = 8)
    (hdigest : digest.length = digestLen)
    (h : ofLeBytes len ≠ body.length ∨ hash.digest body ≠ digest) :
    ∃ error, openBody hash (len ++ (digest ++ body)) = .error error := by
  have hbound : ofLeBytes len < 2 ^ 64 := by
    have hlt := ofLeBytes_lt len
    rw [hlen] at hlt
    exact hlt
  have hnat : (UInt64.ofNat (ofLeBytes len)).toNat = ofLeBytes len := by
    exact Nat.mod_eq_of_lt hbound
  have hread : readU64 (len ++ (digest ++ body)) =
      .ok (UInt64.ofNat (ofLeBytes len), digest ++ body) :=
    bind_of_ok (readExact_append hlen _)
  have hverify : ∃ error, verifySnapshotBody hash (4 + 8 + digestLen) body (ofLeBytes len) digest =
      .error error := by
    unfold verifySnapshotBody
    split
    · exact ⟨_, rfl⟩
    split
    · exact ⟨_, rfl⟩
    rename_i hsame
    rcases h with hbad | hbad
    · exact absurd hbad hsame
    · rw [if_pos hbad]
      exact ⟨_, rfl⟩
  obtain ⟨error, hverify⟩ := hverify
  refine ⟨error, ?_⟩
  simp only [openBody, hread, readExact_append hdigest, hnat, hverify, bind, Except.bind]

theorem openBody_short {hash : Hash} {rest : Bytes} (h : rest.length < 8 + digestLen) :
    ∃ error, openBody hash rest = .error error := by
  unfold openBody
  cases hlen : readU64 rest with
  | error error => exact ⟨error, rfl⟩
  | ok pair =>
    obtain ⟨bodyLen, tail⟩ := pair
    obtain ⟨raw, mid, hraw, hpure⟩ := bind_ok.mp hlen
    obtain ⟨hsplit, hrawLen⟩ := readExact_ok hraw
    have htail : mid = tail := by
      injection hpure with hpure
      injection hpure with _ hmid
    subst htail
    have hshort : mid.length < digestLen := by
      have hlength := congrArg length hsplit
      rw [length_append] at hlength
      omega
    simp only [readExact_short hshort, bind, Except.bind]
    exact ⟨_, rfl⟩

/-- **A broken snapshot is refused in front of its first checkpoint and entry.** -/
theorem loadFromReader_broken (preserve : Option Instant) (store : MemoryStore) {file : Bytes}
    (h : Broken loader.hash (snapshotHeader 6) file) :
    ∃ error, loader.loadFromReader clock preserve store file = (store, .error error) := by
  -- A file with the magic number of format 6 is refused when its body is not opened.
  have hrefused : ∀ rest, (∃ error, openBody loader.hash rest = .error error) →
      ∃ error, loader.loadFromReader clock preserve store (snapshotHeader 6 ++ rest) =
        (store, .error error) := by
    rintro rest ⟨error, hopen⟩
    refine ⟨error, ?_⟩
    have hlen : ¬ (snapshotHeader 6 ++ rest).length < 4 := by simp [snapshotHeader]
    have htake : (snapshotHeader 6 ++ rest).take 4 = snapshotHeader 6 := rfl
    have hdrop : (snapshotHeader 6 ++ rest).drop 4 = rest := rfl
    simp only [Loader.loadFromReader, hlen, if_false, htake, hdrop, if_true,
      Loader.loadVerified, hopen]
  cases h with
  | noMagic _ hshort =>
    have hlen : file.length < 4 := hshort
    exact ⟨_, by rw [Loader.loadFromReader, if_pos hlen]⟩
  | noHead rest hshort => exact hrefused rest (openBody_short hshort)
  | badLength len digest body hlen hdigest hbad =>
    exact hrefused _ (openBody_bad hlen hdigest (.inl hbad))
  | badDigest len digest body hlen hdigest hbad =>
    exact hrefused _ (openBody_bad hlen hdigest (.inr hbad))

/-- A blob with a complete head whose length or digest is wrong has no payload. -/
theorem verifiedDumpPayload_bad (hlen : len.length = 8)
    (hdigest : digest.length = digestLen)
    (h : ofLeBytes len ≠ body.length ∨ loader.hash.digest body ≠ digest) :
    ∃ error, loader.verifiedDumpPayload (dumpHeader ++ (len ++ (digest ++ body))) =
      .error error := by
  have htake : ¬ (dumpHeader ++ (len ++ (digest ++ body))).take 4 ≠ dumpHeader :=
    not_not.mpr rfl
  have hlength : (dumpHeader ++ (len ++ (digest ++ body))).length =
      4 + 8 + digestLen + body.length := by
    simp [dumpHeader]
    omega
  have hhead : ¬ (dumpHeader ++ (len ++ (digest ++ body))).length < 4 + 8 + digestLen := by
    omega
  have hfour : (dumpHeader ++ (len ++ (digest ++ body))).drop 4 = len ++ (digest ++ body) := rfl
  have htwelve : (dumpHeader ++ (len ++ (digest ++ body))).drop 12 = digest ++ body := by
    rw [show 12 = 4 + 8 from rfl, ← drop_drop, hfour, ← hlen, drop_left]
  have hpayload : (dumpHeader ++ (len ++ (digest ++ body))).drop (4 + 8 + digestLen) = body := by
    rw [← drop_drop, htwelve, ← hdigest, drop_left]
  have hlenField : (len ++ (digest ++ body)).take 8 = len := by rw [← hlen, take_left]
  have hdigestField : (digest ++ body).take digestLen = digest := by
    rw [← hdigest, take_left]
  unfold Loader.verifiedDumpPayload
  rw [if_neg htake, if_neg hhead]
  simp only [hfour, htwelve, hpayload, hlenField, hdigestField]
  split
  · exact ⟨_, rfl⟩
  split
  · exact ⟨_, rfl⟩
  · rcases h with hbad | hbad
    · exact absurd (by omega) hbad
    · rw [if_pos hbad]
      exact ⟨_, rfl⟩

/-- A broken blob has no payload, unless too little is left of it to hold a header. -/
theorem verifiedDumpPayload_broken (h : Broken loader.hash dumpHeader blob) :
    (∃ error, loader.verifiedDumpPayload blob = .error error) ∨
      (loader.verifiedDumpPayload blob = .ok blob ∧ blob.length < 4) := by
  cases h with
  | noMagic _ hshort =>
    right
    have hlen : blob.length < 4 := hshort
    have htake : blob.take 4 ≠ dumpHeader := by
      intro heq
      have hlength := congrArg length heq
      simp [dumpHeader] at hlength
      omega
    exact ⟨if_pos htake, hlen⟩
  | noHead rest hshort =>
    left
    have hlen : (dumpHeader ++ rest).length < 4 + 8 + digestLen := by
      simp [dumpHeader]
      omega
    have htake : ¬ (dumpHeader ++ rest).take 4 ≠ dumpHeader := not_not.mpr rfl
    exact ⟨_, by rw [Loader.verifiedDumpPayload, if_neg htake, if_pos hlen]⟩
  | badLength len digest body hlen hdigest hbad =>
    exact .inl (verifiedDumpPayload_bad loader hlen hdigest (.inl hbad))
  | badDigest len digest body hlen hdigest hbad =>
    exact .inl (verifiedDumpPayload_bad loader hlen hdigest (.inr hbad))

theorem decodeDumpBlob_broken (store : MemoryStore)
    (h : Broken loader.hash dumpHeader blob) :
    ∃ error, loader.decodeDumpBlob clock store blob = (store, .error error) := by
  rcases verifiedDumpPayload_broken loader h with ⟨error, hpayload⟩ | ⟨hpayload, hshort⟩
  · exact ⟨error, by simp only [Loader.decodeDumpBlob, hpayload]⟩
  · simp only [Loader.decodeDumpBlob, hpayload, readExact_short hshort]
    exact ⟨_, rfl⟩

theorem decodeDumpBlobValue_broken (h : Broken loader.hash dumpHeader blob) :
    ∃ error, loader.decodeDumpBlobValue blob = .error error := by
  rcases verifiedDumpPayload_broken loader h with ⟨error, hpayload⟩ | ⟨hpayload, hshort⟩
  · exact ⟨error, by simp only [Loader.decodeDumpBlobValue, hpayload, bind, Except.bind]⟩
  · simp only [Loader.decodeDumpBlobValue, hpayload, readExact_short hshort, bind, Except.bind]
    exact ⟨_, rfl⟩

/-- A damaged copy of a snapshot, or of a blob, is refused as a whole: the load fails and
neither an entry nor a checkpoint of it has reached the store. -/
structure DamageRejected (store : MemoryStore) : Prop where
  snapshot : ∀ entries checkpoints file copy preserve,
    saveSnapshotBinary loader.hash loader.crypto entries checkpoints = .ok file →
    Damaged 4 file copy → NoCollision loader.hash 4 file copy →
    ∃ error, loader.loadFromReader clock preserve store copy = (store, .error error)
  blob : ∀ entry now blob copy,
    encodeDumpBlob loader.hash loader.crypto entry now = .ok blob →
    Damaged 4 blob copy → NoCollision loader.hash 4 blob copy →
    (∃ error, loader.decodeDumpBlob clock store copy = (store, .error error)) ∧
      ∃ error, loader.decodeDumpBlobValue copy = .error error

/-- **Damaged snapshots and blobs are rejected as a whole.** -/
theorem damage_rejected (store : MemoryStore) : DamageRejected loader clock store where
  snapshot entries checkpoints file copy preserve hsave hdamaged hcollide := by
    obtain ⟨head, tail, -, -, -, hsize, rfl⟩ := saveSnapshotBinary_ok hsave
    exact loadFromReader_broken loader clock preserve store (hdamaged.broken hsize hcollide)
  blob entry now blob copy hencode hdamaged hcollide := by
    obtain ⟨payload, hsize, rfl⟩ := encodeDumpBlob_ok hencode
    have hbroken : Broken loader.hash dumpHeader copy := hdamaged.broken hsize hcollide
    exact ⟨decodeDumpBlob_broken loader clock store hbroken,
      decodeDumpBlobValue_broken loader hbroken⟩

end Rejection

/-! ### A flipped bit -/

/-- The entry of a string under the key `k`, without a deadline. -/
def entryOf (value : String) : Bytes :=
  tag 'S' :: (writeText (str "k") ++ (writeI64 (-1) ++ writeBytes (ascii value)))

def blobBody (value : String) : Bytes := snapshotHeader 3 ++ entryOf value

def fileBody (value : String) : Bytes := leBytes 4 0 ++ entryOf value

/-- The SHA-256 digests of the four bodies below. -/
def sha256Table : List (Bytes × Nat) :=
  [(blobBody "v", 0x079287344eaa72f2bf0c53f993cc6d11a646ab43a79adeeb63137087594048c8),
    (blobBody "w", 0x27d5d1189d1be9fa46d7a9306280a65fa9f34c2a6a5d914e65161d799a251edd),
    (fileBody "v", 0xc62127c47bfd6e742e4c2f23ef2ba6ac9e16d123b0aa71de470d09b822c22c2e),
    (fileBody "w", 0x05b3837c55269d62ae7a3b3623e7be74ceb020586c1f054ac86d5392729489d3)]

def tabulated : Hash where
  digest body := (leBytes digestLen ((sha256Table.lookup body).getD 0)).reverse
  digest_length _ := by rw [length_reverse, leBytes_length]

def plainCrypto : VectorCrypto where
  encryptVector _ _ := .error "encryption is not configured"
  decryptVector _ _ := .error "encryption is not configured"
  decrypt_encrypt _ _ _ h := by cases h
  short _ _ _ h := by cases h

def plainLoader : Loader := ⟨tabulated, plainCrypto, fun store _ => (store, .ok ())⟩

def smallBlob : Bytes := envelope tabulated dumpHeader (blobBody "v")

def smallFile : Bytes := envelope tabulated (snapshotHeader 6) (fileBody "v")

/-- The last byte of the value is changed. -/
def flipped (copy : Bytes) : Bytes := copy.dropLast ++ ascii "w"

/-- The string `v` as a blob and as a snapshot: both are read, and with the last byte changed
neither is. -/
theorem damage_rejected_flipped :
    encodeDumpBlob tabulated plainCrypto ⟨str "k", .str (ascii "v"), 0⟩ 0 = .ok smallBlob ∧
      plainLoader.decodeDumpBlobValue smallBlob = .ok (.str (ascii "v"), -1) ∧
      (∃ error, plainLoader.decodeDumpBlobValue (flipped smallBlob) = .error error) ∧
      saveSnapshotBinary tabulated plainCrypto [(⟨str "k", .str (ascii "v"), 0⟩, 0)] [] =
        .ok smallFile ∧
      ∃ error, plainLoader.loadFromReader (fun _ => ⟨0, 0, 0⟩) none ⟨[], []⟩ (flipped smallFile) =
        (⟨[], []⟩, .error error) := by
  have hencode : encodeDumpBlob tabulated plainCrypto ⟨str "k", .str (ascii "v"), 0⟩ 0 =
      .ok smallBlob := by decide +kernel
  have hsave : saveSnapshotBinary tabulated plainCrypto [(⟨str "k", .str (ascii "v"), 0⟩, 0)] [] =
      .ok smallFile := by decide +kernel
  have hdamaged : ∀ file ∈ [smallBlob, smallFile], Damaged 4 file (flipped file) ∧
      NoCollision tabulated 4 file (flipped file) := by
    intro file hfile
    have hne : tabulated.digest ((flipped file).drop (4 + 8 + digestLen)) ≠
        tabulated.digest (file.drop (4 + 8 + digestLen)) := by
      rcases mem_pair.mp hfile with rfl | rfl
      · decide +kernel
      · decide +kernel
    refine ⟨?_, fun heq => absurd heq hne⟩
    rcases mem_pair.mp hfile with rfl | rfl
    · exact .altered .body _ (by decide +kernel) (by decide +kernel) (by decide +kernel)
        (by decide +kernel)
    · exact .altered .body _ (by decide +kernel) (by decide +kernel) (by decide +kernel)
        (by decide +kernel)
  obtain ⟨hblob, hblobNe⟩ := hdamaged smallBlob (by simp)
  obtain ⟨hfile, hfileNe⟩ := hdamaged smallFile (by simp)
  have hreject := damage_rejected plainLoader (fun _ => ⟨0, 0, 0⟩) ⟨[], []⟩
  exact ⟨hencode, by decide +kernel, (hreject.blob _ _ _ _ hencode hblob hblobNe).2, hsave,
    hreject.snapshot _ _ _ _ _ hsave hfile hfileNe⟩

end Lux
