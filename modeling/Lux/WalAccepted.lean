import Lux.WalLog
import Lux.WalTornTail

/-!
# What a log accepts it should replay

A file is opened and replayed, records are appended to the log, and the file is
opened and replayed again. The append interface limits neither the size of a
frame nor the shape of a command; the reader limits both.
`replaysAppends_iff` says which appended records can be replayed, for a file of
any format: those whose frame body is at most `maxWalFrameBytes` long, that
contain no empty command, and whose frame does not read as a broken wrapper.

The converse needs the announced length of a frame to be its length. A payload
of `2 ^ 32` bytes or more announces less than it has; in the current format the
checksum then has to differ.
-/

namespace Lux

open ByteCodec FrameScan List WalRecord Wal

namespace WalRecord

/-- The reader takes the record's frame and the decoder its payload. -/
def Replays (format : WalFrameFormat) (record : WalRecord) : Prop :=
  record.Legible ∧
    ∀ payload ∈ record.payload, (olderBody format payload).length ≤ maxWalFrameBytes

instance (format : WalFrameFormat) (record : WalRecord) : Decidable (record.Replays format) :=
  inferInstanceAs (Decidable (_ ∧ _))

/-- An accepted record replays when its payload is readable. -/
theorem replays_iff {format : WalFrameFormat} {record : WalRecord}
    (haccepted : record.Accepted) :
    record.Replays format ↔ ∀ payload ∈ record.payloads, Readable format payload := by
  cases hpayload : record.payload with
  | none =>
    have hnone : record.Legible := by
      obtain ⟨hcommands, -⟩ := commands_of_no_payload haccepted hpayload
      match record, hcommands with
      | .batch [], _ => exact not_mem_nil
    simp [Replays, payloads, hpayload, hnone]
  | some payload =>
    obtain ⟨args, hargs, rfl⟩ := payload_eq_some hpayload
    have hmem : record.payloads = [commandPayload args] := by simp [payloads, hpayload]
    constructor
    · rintro ⟨hlegible, hfits⟩ other hother
      rw [hmem, mem_singleton] at hother
      subst hother
      have hfit := hfits _ hpayload
      have hlen : (commandPayload args).length ≤ maxWalFrameBytes :=
        le_trans (length_le_olderBody format _) hfit
      exact ⟨hfit, (decodeRecord_isOk hargs hlen).mpr hlegible⟩
    · intro h
      have hread := h (commandPayload args) (by rw [hmem]; exact mem_singleton_self _)
      have hlen : (commandPayload args).length ≤ maxWalFrameBytes :=
        le_trans (length_le_olderBody format _) hread.fits
      refine ⟨(decodeRecord_isOk hargs hlen).mp hread.decodes, ?_⟩
      intro other hother
      obtain rfl : commandPayload args = other := by
        simpa [hpayload] using hother
      exact hread.fits

end WalRecord

open WalRecord

section

variable {records : List WalRecord} (haccepted : ∀ record ∈ records, record.Accepted)
include haccepted

/-- One record that does not replay stops the scan of them all. -/
theorem scan_records_error {format : WalFrameFormat}
    (hseen : ∀ record ∈ records, record.LengthSeen format)
    (hbad : ∃ record ∈ records, ¬ record.Replays format) (fileLen : Nat) (rest : Bytes)
    (replay : WalReplay) :
    ∃ error, scan (readNextFramePayload format) (replayStep fileLen)
      (framesOf format (records.flatMap payloads) ++ rest) replay = .error error := by
  induction records generalizing replay with
  | nil =>
    obtain ⟨record, hrecord, -⟩ := hbad
    cases hrecord
  | cons record records ih =>
    have hown := haccepted record mem_cons_self
    rw [flatMap_cons, framesOf_append, append_assoc]
    by_cases hgood : record.Replays format
    · obtain ⟨next, hscan, -⟩ := scan_readable ((replays_iff hown).mp hgood) fileLen
        (framesOf format (records.flatMap payloads) ++ rest) replay
      rw [hscan]
      apply ih
      · intro other hother
        exact haccepted other (mem_cons_of_mem _ hother)
      · intro other hother
        exact hseen other (mem_cons_of_mem _ hother)
      · obtain ⟨other, hother, hnot⟩ := hbad
        rcases mem_cons.mp hother with rfl | hother
        · exact absurd hgood hnot
        · exact ⟨other, hother, hnot⟩
    have hnot := mt (replays_iff hown).mpr hgood
    push Not at hnot
    obtain ⟨payload, hmem, hunreadable⟩ := hnot
    have hpayload : record.payload = some payload := by
      simpa [payloads] using hmem
    have hframes : framesOf format record.payloads = encodePayload format payload := by
      simp [payloads, hpayload, framesOf]
    rw [hframes]
    exact scan_unreadable hpayload (hseen record mem_cons_self) hunreadable fileLen _ replay

/-- **Accepted appends replay.**  If all records are appended to the log, its file
opens and replays. -/
def Wal.ReplaysAppends (start : Wal) (records : List WalRecord) : Prop :=
  ∀ written, start.appendAll records = .ok written → ∀ create fresh,
    ∃ opened replay after, Wal.openIn written.file create fresh = .ok opened ∧
      opened.replayFrom none = (.ok replay, after)

variable {payloads : List Bytes}

/-- The appended log holds the old payloads and those of the records. -/
theorem Wal.Holds.appendAll {start : Wal} (h : start.Holds payloads) :
    ∃ written, start.appendAll records = .ok written ∧
      written.frameFormat = start.frameFormat ∧
      written.Holds (payloads ++ records.flatMap WalRecord.payloads) := by
  refine ⟨_, appendAll_accepted haccepted start, rfl, ?_⟩
  rw [frames_eq_framesOf]
  exact h.append _

/-- Records that replay are replayed once they are appended. -/
theorem Wal.Holds.replaysAppends {start : Wal} (hholds : start.Holds payloads)
    (hread : ∀ payload ∈ payloads, Readable start.frameFormat payload)
    (h : ∀ record ∈ records, record.Replays start.frameFormat) : start.ReplaysAppends records := by
  obtain ⟨written, hwritten, hformat, hafter⟩ := hholds.appendAll haccepted
  intro other hother create fresh
  obtain rfl : written = other := Except.ok.inj (hwritten.symm.trans hother)
  have hall : ∀ payload ∈ (payloads ++ records.flatMap WalRecord.payloads).drop 0,
      Readable written.frameFormat payload := by
    rw [hformat]
    intro payload hmem
    rcases mem_append.mp hmem with hmem | hmem
    · exact hread payload hmem
    · obtain ⟨record, hrecord, hpayload⟩ := mem_flatMap.mp hmem
      exact (replays_iff (haccepted record hrecord)).mp (h record hrecord) payload hpayload
  have hoffset : written.replayOffset none = .ok (written.boundary
      (payloads ++ records.flatMap WalRecord.payloads) 0) := rfl
  obtain ⟨again, hagain, -⟩ := hafter.replayFrom_boundary hall hoffset
  exact ⟨written, again, written, hafter.reopens create fresh, hagain⟩

/-- Records that were replayed do replay, as far as lengths are seen. -/
theorem Wal.Holds.replays_of_replaysAppends {start : Wal} (hholds : start.Holds payloads)
    (hread : ∀ payload ∈ payloads, Readable start.frameFormat payload)
    (hseen : ∀ record ∈ records, record.LengthSeen start.frameFormat)
    (h : start.ReplaysAppends records) : ∀ record ∈ records, record.Replays start.frameFormat := by
  obtain ⟨written, hwritten, hformat, hafter⟩ := hholds.appendAll haccepted
  by_contra hbad
  push Not at hbad
  obtain ⟨again, found, after, hagain, hfound⟩ := h written hwritten true start.generation
  obtain rfl : written = again :=
    Except.ok.inj ((hafter.reopens true start.generation).symm.trans hagain)
  have hfile := hafter.file_eq
  rw [framesOf_append] at hfile
  obtain ⟨next, hscan, -⟩ := scan_readable hread written.file.length
    (framesOf start.frameFormat (records.flatMap WalRecord.payloads)) ⟨[], none⟩
  obtain ⟨error, herror⟩ := scan_records_error haccepted hseen hbad written.file.length [] next
  rw [append_nil] at herror
  rw [replayFrom_none hfile hafter.header_length hafter.file_ne_nil, replayScan,
    hformat, hscan, herror] at hfound
  cases hfound

end

/-- **Exactly these appends are replayed.**  For every file that opens and
replays and every list of accepted records, the appended log replays if every
record does; and only if every record does, as far as lengths are seen. -/
theorem replaysAppends_iff {file : Bytes} {create : Bool} {fresh : Generation}
    {opened start : Wal} {replay : WalReplay}
    (hopen : openIn file create fresh = .ok opened)
    (hreplay : opened.replayFrom none = (.ok replay, start))
    {records : List WalRecord} (haccepted : ∀ record ∈ records, record.Accepted) :
    ((∀ record ∈ records, record.Replays start.frameFormat) →
      start.ReplaysAppends records) ∧
    ((∀ record ∈ records, record.LengthSeen start.frameFormat) →
      start.ReplaysAppends records →
      ∀ record ∈ records, record.Replays start.frameFormat) := by
  obtain ⟨payloads, hholds, hread, -⟩ := holds_of_replay hopen hreplay
  constructor
  · intro h
    exact hholds.replaysAppends haccepted hread h
  · intro hseen h
    exact hholds.replays_of_replaysAppends haccepted hread hseen h

/-- A new log with a plain command, a checked one and a batch. -/
theorem replaysAppends_three :
    (newWal ⟨List.replicate 16 1, rfl⟩).ReplaysAppends
      [.batch [[[0x53, 0x45, 0x54], [0x6b], [0x76]]],
        .checked [[0x44, 0x45, 0x4c], [0x6b]],
        .batch [[[0x44, 0x45, 0x4c], [0x6b]], [[0x49, 0x4e, 0x43, 0x52], [0x6e]]]] := by
  refine (replaysAppends_iff (openIn_empty _) (newWal_replay _) ?_).1 (by decide)
  intro record hrecord
  simp only [mem_cons, not_mem_nil, or_false] at hrecord
  rcases hrecord with rfl | rfl | rfl
  all_goals exact ⟨_, rfl⟩

/-- Two `SET`s of one value as a batch. -/
def setBoth (value : Bytes) : WalRecord :=
  .batch [[[0x53, 0x45, 0x54], [0x61], value], [[0x53, 0x45, 0x54], [0x62], value]]

theorem setBoth_args {value : Bytes} (hvalue : value.length < 2 ^ 32) :
    ∃ wrapped, (setBoth value).args = .ok (some [walBatchMarker, wrapped]) ∧
      wrapped.length = 2 * value.length + 44 := by
  have hfits : ∀ command ∈ (setBoth value).commands, FitsU32 command := by
    intro command hcommand
    simp only [setBoth, commands, mem_cons, not_mem_nil, or_false] at hcommand
    rcases hcommand with rfl | rfl
    all_goals
      refine ⟨by simp, fun arg harg => ?_⟩
      simp only [mem_cons, not_mem_nil, or_false] at harg
      rcases harg with rfl | rfl | rfl
      · simp
      · simp
      · exact hvalue
  have hencode := encodeCommandBatch_eq
    (by simp [setBoth, commands] : (setBoth value).commands.length < 2 ^ 32) hfits
  refine ⟨batchBytes (setBoth value).commands, ?_, ?_⟩
  · simp only [setBoth, commands] at hencode ⊢
    rw [args_batch_many (by simp), hencode]
  · simp [batchBytes, setBoth, commands, commandPayload_length]
    omega

/-- **An accepted batch that cannot be replayed**, when its two values together
fill the largest frame. -/
theorem not_replaysAppends_setBoth {value : Bytes} (generation : Generation)
    (hvalue : 2 * value.length = maxWalFrameBytes) :
    (∃ written, (newWal generation).appendAll [setBoth value] = .ok written) ∧
      ¬ (newWal generation).ReplaysAppends [setBoth value] := by
  have hmax : maxWalFrameBytes = 536870912 := by decide
  obtain ⟨wrapped, hargs, hlen⟩ := setBoth_args (by omega : value.length < 2 ^ 32)
  have hpayload : (setBoth value).payload = some (commandPayload [walBatchMarker, wrapped]) := by
    simp [payload, hargs]
  have hsize : (commandPayload [walBatchMarker, wrapped]).length = maxWalFrameBytes + 66 := by
    simp [commandPayload_length, walBatchMarker]
    omega
  have haccepted : ∀ record ∈ [setBoth value], record.Accepted :=
    forall_mem_singleton.mpr ⟨_, hargs⟩
  refine ⟨⟨_, appendAll_accepted haccepted _⟩, fun h => ?_⟩
  have hseen : ∀ record ∈ [setBoth value], record.LengthSeen .guarded := by
    refine forall_mem_singleton.mpr (noChecksumCollision_of_small ?_)
    simp only [hpayload, Option.mem_some, forall_eq']
    omega
  obtain ⟨payloads, hholds, hread, -⟩ := holds_of_replay (openIn_empty generation)
    (newWal_replay generation)
  have hgood := hholds.replays_of_replaysAppends haccepted hread hseen h (setBoth value)
    (mem_singleton_self _)
  have hfit : (commandPayload [walBatchMarker, wrapped]).length ≤ maxWalFrameBytes :=
    hgood.2 _ hpayload
  omega

/-- Two values of 256 MiB, each of which a single `SET` could carry. -/
theorem not_replaysAppends_256_MiB :
    let value : Bytes := List.replicate (maxWalFrameBytes / 2) 0
    (∃ written, (newWal ⟨List.replicate 16 1, rfl⟩).appendAll [setBoth value] =
        .ok written) ∧
      ¬ (newWal ⟨List.replicate 16 1, rfl⟩).ReplaysAppends [setBoth value] := by
  intro value
  apply not_replaysAppends_setBoth
  have hlen : value.length = maxWalFrameBytes / 2 := length_replicate
  have hmax : maxWalFrameBytes = 536870912 := by decide
  omega

end Lux
