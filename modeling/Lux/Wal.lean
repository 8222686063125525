import Lux.WalPayload

/-!
# The write-ahead log as a state machine

The state of an open log is its file together with what its header said:
frame format, header length and generation. Opening classifies the file by its
first four bytes, appending adds frames at its end, and replaying scans it from
the header (or from a checkpoint) and removes an incomplete last frame.

The file system is the byte string of one file. Directory creation, file
permissions, `fsync` and failing writes are not modelled; the random
generation of a new file is an argument.
-/

namespace Lux

open ByteCodec List

/-- A generation is exactly sixteen bytes. -/
abbrev Generation := { bytes : Bytes // bytes.length = walGenerationLen }

def legacyWalGeneration : Generation :=
  ⟨List.replicate 16 0, rfl⟩

def walHeaderV2Len : Nat := walMagicV2.length + walGenerationLen
def walHeaderLen : Nat := walHeaderV2Len + 4

def walHeaderCrc (generation : Generation) : UInt32 :=
  crc32 (walMagic ++ generation.1)

def walHeaderBytes (generation : Generation) : Bytes :=
  walMagic ++ generation.1 ++ leBytes 4 (walHeaderCrc generation).toNat

@[ext] structure Wal where
  file : Bytes
  frameFormat : WalFrameFormat
  headerLen : Nat
  generation : Generation
  deriving DecidableEq, Repr

structure WalCheckpoint where
  generation : Generation
  offset : Nat
  successorGeneration : Option Generation
  deriving DecidableEq, Repr

structure WalReplay where
  commands : List Command
  checkedTailOffset : Option Nat
  deriving DecidableEq, Repr

namespace Wal

/-! ## Opening -/

/-- Sixteen generation bytes, as both headers that carry one read them. -/
def readGeneration (context : String) (input : Bytes) : IoResult (Generation × Bytes) :=
  match describe context (readExact walGenerationLen input) with
  | .error error => .error error
  | .ok (raw, rest) =>
    if hlen : raw.length = walGenerationLen then
      .ok (⟨raw, hlen⟩, rest)
    else
      .error ⟨.invalidData, context⟩

/-- Open a file with the given contents. An empty file becomes a new log when
the caller may create one. -/
def openIn (file : Bytes) (create : Bool) (newGeneration : Generation) : IoResult Wal :=
  if file.isEmpty then
    if create then
      .ok ⟨walHeaderBytes newGeneration, .guarded, walHeaderLen, newGeneration⟩
    else
      .error ⟨.invalidData,
        "journal is empty; refusing to initialize it beside an existing snapshot"⟩
  else
    match readExact 4 file with
    | .error error => .error error
    | .ok (magic, rest) =>
      if magic = walMagic then
        match readGeneration "truncated LXW3 WAL header" rest with
        | .error error => .error error
        | .ok (generation, rest) =>
          match describe "truncated LXW3 WAL header checksum" (readU32 rest) with
          | .error error => .error error
          | .ok (storedCrc, _) =>
            if storedCrc ≠ (walHeaderCrc generation).toNat then
              .error ⟨.invalidData, "LXW3 WAL header checksum mismatch"⟩
            else
              .ok ⟨file, .guarded, walHeaderLen, generation⟩
      else if magic = walMagicV2 then
        match readGeneration "truncated LXW2 WAL header" rest with
        | .error error => .error error
        | .ok (generation, _) => .ok ⟨file, .checksummed, walHeaderV2Len, generation⟩
      else if magic = walMagicV1 then
        .ok ⟨file, .checksummed, walMagicV1.length, legacyWalGeneration⟩
      else
        .ok ⟨file, .legacy, 0, legacyWalGeneration⟩

/-! ## Appending -/

def appendEncodedFrames (wal : Wal) (frames : Bytes) : Wal :=
  { wal with file := wal.file ++ frames }

def appendCommands (wal : Wal) (commands : List Command) : IoResult Wal :=
  match commands with
  | [] => .ok wal
  | [command] => .ok (wal.appendEncodedFrames (encodeCommandFrame wal.frameFormat command))
  | _ =>
    match encodeCommandBatch commands with
    | .error error => .error error
    | .ok payload =>
      .ok (wal.appendEncodedFrames
        (encodeCommandFrame wal.frameFormat [walBatchMarker, payload]))

def appendCheckedCommand (wal : Wal) (args : Command) : IoResult Wal :=
  match encodeCommandBatch [args] with
  | .error error => .error error
  | .ok payload =>
    .ok (wal.appendEncodedFrames
      (encodeCommandFrame wal.frameFormat [walCheckedMarker, payload]))

def append (wal : Wal) : WalRecord → IoResult Wal
  | .batch commands => wal.appendCommands commands
  | .checked args => wal.appendCheckedCommand args

/-- A sequence of appends, up to the first that is refused. -/
def appendAll (wal : Wal) : List WalRecord → IoResult Wal
  | [] => .ok wal
  | record :: records =>
    match wal.append record with
    | .error error => .error error
    | .ok next => next.appendAll records

/-! ## Replaying -/

/-- Cut or zero-extend the file to `offset` bytes. -/
def rollbackTo (wal : Wal) (offset : Nat) : Wal :=
  { wal with
    file := wal.file.take offset ++ List.replicate (offset - wal.file.length) 0 }

/-- Walk the frames up to the checkpoint, which must be a frame boundary. -/
def validateFrames (wal : Wal) (offset : Nat) : Nat → Nat → IoResult Unit
  | 0, _ => .ok ()
  | fuel+1, position =>
    if position < offset then
      match readNextFramePayload wal.frameFormat (wal.file.drop position) with
      | .error error => .error error
      | .ok none =>
        .error ⟨.invalidData, "snapshot WAL checkpoint does not fall on a frame boundary"⟩
      | .ok (some (_, rest)) =>
        let position := wal.file.length - rest.length
        if offset < position then
          .error ⟨.invalidData,
            "snapshot WAL checkpoint does not fall on a frame boundary"⟩
        else
          wal.validateFrames offset fuel position
    else
      .ok ()

def validateCheckpointOffset (wal : Wal) (offset : Nat) : IoResult Unit :=
  if offset < wal.headerLen ∨ wal.file.length < offset then
    .error ⟨.invalidData, "snapshot WAL checkpoint is outside the journal"⟩
  else
    wal.validateFrames offset wal.file.length wal.headerLen

/-- Where a replay starts. A checkpoint counts only for the generation it
names; its authorized successor starts at the header. -/
def replayOffset (wal : Wal) (checkpoint : Option WalCheckpoint) : IoResult Nat :=
  match checkpoint with
  | none => .ok wal.headerLen
  | some checkpoint =>
    if checkpoint.generation = wal.generation then
      match wal.validateCheckpointOffset checkpoint.offset with
      | .error error => .error error
      | .ok () => .ok checkpoint.offset
    else if checkpoint.successorGeneration = some wal.generation then
      .ok wal.headerLen
    else if checkpoint.successorGeneration.isSome then
      .error ⟨.invalidData,
        "journal generation does not match the snapshot checkpoint or its authorized successor"⟩
    else
      .ok wal.headerLen

/-- One frame of the replay loop; `input` are the bytes from the frame's start. -/
def replayStep (fileLen : Nat) (replay : WalReplay) (input payload : Bytes) :
    IoResult WalReplay :=
  match decodeWalPayload payload with
  | .error error => .error error
  | .ok (commands, checked) =>
    .ok ⟨replay.commands ++ commands,
      if checked then some (fileLen - input.length) else none⟩

/-- The replay loop over the bytes from the replay offset onwards. -/
def replayScan (wal : Wal) : Bytes → WalReplay → IoResult (FrameScan.Outcome WalReplay) :=
  FrameScan.scan (readNextFramePayload wal.frameFormat) (replayStep wal.file.length)

/-- Replay the log. The second component is the log afterwards: it changes only
when an incomplete last frame is removed. -/
def replayFrom (wal : Wal) (checkpoint : Option WalCheckpoint) :
    IoResult WalReplay × Wal :=
  if wal.file.isEmpty then
    (.ok ⟨[], none⟩, wal)
  else
    match wal.replayOffset checkpoint with
    | .error error => (.error error, wal)
    | .ok offset =>
      match wal.replayScan (wal.file.drop offset) ⟨[], none⟩ with
      | .error error => (.error error, wal)
      | .ok ⟨replay, torn⟩ =>
        if torn.isEmpty then
          (.ok replay, wal)
        else
          (.ok { replay with checkedTailOffset := none },
            wal.rollbackTo (wal.file.length - torn.length))

/-- Open a file and replay it from its header: the outcome, and the file it
leaves behind. -/
def recover (file : Bytes) (create : Bool) (newGeneration : Generation) :
    IoResult WalReplay × Bytes :=
  match openIn file create newGeneration with
  | .error error => (.error error, file)
  | .ok wal =>
    let (result, after) := wal.replayFrom none
    (result, after.file)

/-! ## What an append adds -/

theorem append_eq (wal : Wal) (record : WalRecord) :
    wal.append record =
      match record.args with
      | .error error => .error error
      | .ok none => .ok wal
      | .ok (some args) =>
        .ok (wal.appendEncodedFrames (encodeCommandFrame wal.frameFormat args)) := by
  match record with
  | .batch [] => rfl
  | .batch [command] => rfl
  | .batch (first :: second :: more) =>
    rw [WalRecord.args_batch_many (by simp)]
    simp only [append, appendCommands]
    cases encodeCommandBatch (first :: second :: more) <;> rfl
  | .checked args =>
    simp only [append, appendCheckedCommand, WalRecord.args]
    cases encodeCommandBatch [args] <;> rfl

/-- An accepted record adds its frame and changes nothing else. -/
theorem append_accepted {record : WalRecord} (h : record.Accepted) (wal : Wal) :
    wal.append record = .ok (wal.appendEncodedFrames (record.frame wal.frameFormat)) := by
  obtain ⟨args, hargs⟩ := h
  rw [append_eq]
  cases args with
  | none => simp [WalRecord.frame, WalRecord.payload, hargs, appendEncodedFrames]
  | some args => simp [WalRecord.frame, WalRecord.payload, hargs, encodeCommandFrame]

theorem appendAll_accepted {records : List WalRecord}
    (h : ∀ record ∈ records, record.Accepted) (wal : Wal) :
    wal.appendAll records =
      .ok (wal.appendEncodedFrames (records.flatMap (WalRecord.frame wal.frameFormat))) := by
  induction records generalizing wal with
  | nil => simp [appendAll, appendEncodedFrames]
  | cons record records ih =>
    have hhead := append_accepted (h record mem_cons_self) wal
    have htail := ih (fun r hr => h r (mem_cons_of_mem _ hr))
      (wal.appendEncodedFrames (record.frame wal.frameFormat))
    rw [appendAll, hhead]
    simp only [htail]
    simp [appendEncodedFrames]

/-! ## What opening finds -/

/-- The log that opening an empty file creates. -/
def newWal (generation : Generation) : Wal :=
  ⟨walHeaderBytes generation, .guarded, walHeaderLen, generation⟩

variable (generation : Generation)

theorem openIn_empty : openIn [] true generation = .ok (newWal generation) := rfl

theorem walHeaderBytes_length : (walHeaderBytes generation).length = walHeaderLen := by
  rw [walHeaderBytes, length_append, length_append, generation.2]
  rfl

theorem readGeneration_append (context : String) (generation : Generation) (rest : Bytes) :
    readGeneration context (generation.1 ++ rest) = .ok (generation, rest) := by
  simp [readGeneration, readExact_append generation.2, describe, generation.2]

/-- A file that starts with a current header is opened as a guarded log. -/
theorem openIn_guarded (body : Bytes) (create : Bool) (fresh : Generation) :
    openIn (walHeaderBytes generation ++ body) create fresh =
      .ok ⟨walHeaderBytes generation ++ body, .guarded, walHeaderLen, generation⟩ := by
  have hne : (walHeaderBytes generation ++ body).isEmpty = false := by
    simp [walHeaderBytes, walMagic]
  have hmagic (rest : Bytes) : readExact 4 (walMagic ++ rest) = .ok (walMagic, rest) :=
    readExact_append (show walMagic.length = 4 from rfl) rest
  have hcrc : (walHeaderCrc generation).toNat % 2 ^ 32 = (walHeaderCrc generation).toNat :=
    Nat.mod_eq_of_lt (walHeaderCrc generation).toNat_lt
  rw [openIn, hne]
  simp only [walHeaderBytes, append_assoc, hmagic, readGeneration_append,
    readU32_append, describe, hcrc, if_true, ne_eq, not_true_eq_false, if_false,
    Bool.false_eq_true]

theorem openIn_lxw2 (body : Bytes) (create : Bool) (fresh : Generation) :
    openIn (walMagicV2 ++ generation.1 ++ body) create fresh =
      .ok ⟨walMagicV2 ++ generation.1 ++ body, .checksummed, walHeaderV2Len, generation⟩ := by
  have hne : (walMagicV2 ++ (generation.1 ++ body)).isEmpty = false := by simp [walMagicV2]
  have h3 : walMagicV2 ≠ walMagic := by decide
  rw [append_assoc, openIn, hne, readExact_append (show walMagicV2.length = 4 from rfl)]
  simp only [h3, readGeneration_append, if_true, if_false, Bool.false_eq_true]

theorem openIn_lxw1 (body : Bytes) (create : Bool) (fresh : Generation) :
    openIn (walMagicV1 ++ body) create fresh =
      .ok ⟨walMagicV1 ++ body, .checksummed, walMagicV1.length, legacyWalGeneration⟩ := by
  have hne : (walMagicV1 ++ body).isEmpty = false := by simp [walMagicV1]
  have h3 : walMagicV1 ≠ walMagic := by decide
  have h2 : walMagicV1 ≠ walMagicV2 := by decide
  rw [openIn, hne, readExact_append (show walMagicV1.length = 4 from rfl)]
  simp only [h3, h2, if_true, if_false, Bool.false_eq_true]

/-- A file that starts with no magic number is a log without a header. -/
theorem openIn_bare {head : Bytes} (hfour : head.length = 4) (h3 : head ≠ walMagic)
    (h2 : head ≠ walMagicV2) (h1 : head ≠ walMagicV1) (body : Bytes) (create : Bool)
    (fresh : Generation) :
    openIn (head ++ body) create fresh = .ok ⟨head ++ body, .legacy, 0, legacyWalGeneration⟩ := by
  have hne : (head ++ body).isEmpty = false := by
    cases head with
    | nil => simp at hfour
    | cons b bytes => rfl
  rw [openIn, hne, readExact_append hfour]
  simp only [h3, h2, h1, if_false, Bool.false_eq_true]

/-! ## What a replay does -/

theorem replayStep_ok {payload : Bytes} {commands : List Command} {checked : Bool}
    (h : decodeWalPayload payload = .ok (commands, checked))
    (fileLen : Nat) (replay : WalReplay) (input : Bytes) :
    ∃ next, replayStep fileLen replay input payload = .ok next ∧
      next.commands = replay.commands ++ commands := by
  refine ⟨⟨replay.commands ++ commands,
    if checked then some (fileLen - input.length) else none⟩, ?_, rfl⟩
  simp only [replayStep, h]

theorem replayStep_error {payload : Bytes} {error : IoError}
    (h : decodeWalPayload payload = .error error)
    (fileLen : Nat) (replay : WalReplay) (input : Bytes) :
    replayStep fileLen replay input payload = .error error := by
  simp only [replayStep, h]

/-- Rolling back an incomplete tail leaves the bytes before it. -/
theorem rollbackTo_tail {wal : Wal} {kept torn : Bytes} (h : wal.file = kept ++ torn) :
    wal.rollbackTo (wal.file.length - torn.length) = { wal with file := kept } := by
  have hlen : wal.file.length - torn.length = kept.length := by simp [h]
  rw [rollbackTo, hlen, h]
  simp

/-- A replay from the header is the scan of everything behind it. -/
theorem replayFrom_none {wal : Wal} {header body : Bytes} (hfile : wal.file = header ++ body)
    (hheader : header.length = wal.headerLen) (hne : wal.file ≠ []) :
    wal.replayFrom none =
      match wal.replayScan body ⟨[], none⟩ with
      | .error error => (.error error, wal)
      | .ok ⟨replay, torn⟩ =>
        if torn.isEmpty then
          (.ok replay, wal)
        else
          (.ok { replay with checkedTailOffset := none },
            wal.rollbackTo (wal.file.length - torn.length)) := by
  have hempty : wal.file.isEmpty = false := by simpa using hne
  have hdrop : wal.file.drop wal.headerLen = body := by
    rw [hfile, ← hheader, drop_left]
  simp only [replayFrom, hempty, replayOffset, hdrop, Bool.false_eq_true, if_false]

theorem newWal_replay :
    (newWal generation).replayFrom none = (.ok ⟨[], none⟩, newWal generation) := by
  have hne : (newWal generation).file ≠ [] := by simp [newWal, walHeaderBytes, walMagic]
  have hreplay := replayFrom_none (append_nil (newWal generation).file).symm
    (walHeaderBytes_length generation) hne
  rw [hreplay, replayScan]
  rfl

/-- A replay keeps what the header said. -/
theorem replayFrom_header {wal after : Wal} {checkpoint : Option WalCheckpoint}
    {result : IoResult WalReplay} (h : wal.replayFrom checkpoint = (result, after)) :
    after.frameFormat = wal.frameFormat ∧ after.headerLen = wal.headerLen ∧
      after.generation = wal.generation := by
  unfold replayFrom at h
  repeat' split at h
  all_goals
    cases h
    exact ⟨rfl, rfl, rfl⟩

/-- **A failed replay changes nothing**, whatever checkpoint it was given. -/
theorem replayFrom_error_unchanged {wal after : Wal} {checkpoint : Option WalCheckpoint}
    {error : IoError} (h : wal.replayFrom checkpoint = (.error error, after)) :
    after = wal := by
  unfold replayFrom at h
  split at h
  · cases h
  split at h
  · cases h
    rfl
  · split at h
    · cases h
      rfl
    · split at h <;> cases h

end Wal

end Lux
