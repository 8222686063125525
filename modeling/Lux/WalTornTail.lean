import Lux.WalLog

/-!
# A torn tail of the current log format

Records are appended to a new log, the file is cut at an arbitrary byte behind
its header, and the cut file is opened and replayed. `RecoversCut` states what
recovery owes: exactly the commands of the records that lie completely before
the cut, a file that ends behind the last of them, and a log on which further
appends replay behind those commands.

A record keeps this promise only when the reader accepts its frame again.
`appendCommands` does not check that: it accepts a payload above
`maxWalFrameBytes`, an empty command, and a command that reads like a wrapper.
`recoversCut_iff` says that nothing else can break the promise.
-/

namespace Lux

open ByteCodec FrameScan List Wal

namespace WalRecord

/-- The record's frame can be read and decoded again. -/
def Replayable (record : WalRecord) : Prop :=
  record.WellFormed ∧ ∀ payload ∈ record.payload, payload.length ≤ maxWalFrameBytes

instance (record : WalRecord) : Decidable record.Replayable :=
  inferInstanceAs (Decidable (_ ∧ _))

/-- The payload and the part of it that its four-byte length can announce do
not share a checksum. Only payloads of at least `2 ^ 32` bytes are concerned. -/
def NoChecksumCollision (record : WalRecord) : Prop :=
  ∀ payload ∈ record.payload,
    let announced := payload.length % 2 ^ 32
    crc32 (leBytes 4 announced ++ payload.take announced) =
      crc32 (leBytes 4 announced ++ payload) →
    payload.take announced = payload

/-- The length that the record's frame announces is its own, or the checksum
notices that it is not. -/
def LengthSeen (format : WalFrameFormat) (record : WalRecord) : Prop :=
  match format with
  | .guarded => record.NoChecksumCollision
  | _ => ∀ payload ∈ record.payload, (olderBody format payload).length < 2 ^ 32

variable {record : WalRecord}

theorem frame_of_payload {payload : Bytes} (h : record.payload = some payload) :
    record.frame .guarded = encodeGuardedPayload payload := by
  simp [frame, h, encodePayload]

variable (format : WalFrameFormat)

theorem frame_of_no_payload (h : record.payload = none) : record.frame format = [] := by
  simp [frame, h]

/-- Only the empty batch is accepted without a frame. -/
theorem commands_of_no_payload (haccepted : record.Accepted) (h : record.payload = none) :
    record.commands = [] ∧ record.WellFormed := by
  obtain ⟨args, hargs⟩ := haccepted
  cases args with
  | some args => simp [payload, hargs] at h
  | none =>
    cases record with
    | checked args =>
      cases hencode : encodeCommandBatch [args] <;>
        simp [WalRecord.args, hencode] at hargs
    | batch commands =>
      rcases commands with - | ⟨first, - | ⟨second, more⟩⟩
      · exact ⟨rfl, not_mem_nil⟩
      · simp [WalRecord.args] at hargs
      · rw [args_batch_many (by simp)] at hargs
        cases hencode : encodeCommandBatch (first :: second :: more) <;>
          simp [hencode] at hargs

theorem payload_eq_some {payload : Bytes} (h : record.payload = some payload) :
    ∃ args, record.args = .ok (some args) ∧ payload = commandPayload args := by
  unfold WalRecord.payload at h
  split at h
  · rename_i args hargs
    injection h with h
    exact ⟨args, hargs, h.symm⟩
  · cases h

/-- The payloads of a record's frames: at most one. -/
def payloads (record : WalRecord) : List Bytes := record.payload.toList

theorem frame_eq_framesOf (record : WalRecord) :
    record.frame format = framesOf format record.payloads := by
  cases hpayload : record.payload with
  | none => simp [frame, payloads, hpayload]
  | some payload => simp [frame, payloads, hpayload, framesOf]

theorem frames_eq_framesOf (records : List WalRecord) :
    records.flatMap (frame format) = framesOf format (records.flatMap payloads) := by
  induction records with
  | nil => rfl
  | cons record records ih =>
    rw [flatMap_cons, flatMap_cons, framesOf_append, ih, frame_eq_framesOf]

/-- A well-formed record whose frame fits is readable, and gives its commands. -/
theorem readable_of_wellFormed {format : WalFrameFormat} (haccepted : record.Accepted)
    (hwf : record.WellFormed)
    (hfits : ∀ payload ∈ record.payload, (olderBody format payload).length ≤ maxWalFrameBytes) :
    (∀ payload ∈ record.payloads, Readable format payload) ∧
      record.payloads.flatMap payloadCommands = record.commands := by
  cases hpayload : record.payload with
  | none =>
    obtain ⟨hcommands, -⟩ := commands_of_no_payload haccepted hpayload
    simp [payloads, hpayload, hcommands]
  | some payload =>
    obtain ⟨args, hargs, rfl⟩ := payload_eq_some hpayload
    have hfit := hfits _ hpayload
    have hlen := le_trans (length_le_olderBody format _) hfit
    have hdecode := (decodeRecord hargs hlen).1 hwf
    have hread : Readable format (commandPayload args) := ⟨hfit, by rw [hdecode]; rfl⟩
    have hmem : record.payloads = [commandPayload args] := by simp [payloads, hpayload]
    rw [hmem]
    refine ⟨?_, by simp [payloadCommands, hdecode]⟩
    intro other hother
    rw [mem_singleton.mp hother]
    exact hread

end WalRecord

open WalRecord

/-! ## Scanning records -/

/-- The replay loop of a guarded log. -/
abbrev guardedScan (fileLen : Nat) :
    Bytes → WalReplay → IoResult (Outcome WalReplay) :=
  scan (readNextFramePayload .guarded) (Wal.replayStep fileLen)

variable {records : List WalRecord}

/-- Replayable records are folded into the commands. -/
theorem guardedScan_records (haccepted : ∀ record ∈ records, record.Accepted)
    (h : ∀ record ∈ records, record.Replayable) (fileLen : Nat) (rest : Bytes)
    (replay : WalReplay) :
    ∃ next, guardedScan fileLen (records.flatMap (frame .guarded) ++ rest) replay =
        guardedScan fileLen rest next ∧
      next.commands = replay.commands ++ records.flatMap commands := by
  have hown := fun record hrecord => @readable_of_wellFormed record .guarded
    (haccepted record hrecord) (h record hrecord).1 (h record hrecord).2
  have hread : ∀ payload ∈ records.flatMap payloads, Readable .guarded payload := by
    intro payload hmem
    obtain ⟨record, hrecord, hpayload⟩ := mem_flatMap.mp hmem
    exact (hown record hrecord).1 payload hpayload
  obtain ⟨next, hscan, hnext⟩ := scan_readable hread fileLen rest replay
  refine ⟨next, ?_, ?_⟩
  · rw [frames_eq_framesOf]
    exact hscan
  · rw [hnext, flatMap_assoc]
    exact congrArg _ (flatMap_congr fun record hrecord => (hown record hrecord).2)

variable {record : WalRecord}

/-- A payload above the limit is refused as soon as the reader can see that its
announced length or its checksum is wrong. -/
theorem readGuarded_oversized {payload body : Bytes} (hpayload : record.payload = some payload)
    (hcrc : record.NoChecksumCollision) (hbig : maxWalFrameBytes < payload.length)
    (hseen : maxWalFrameBytes < payload.length % 2 ^ 32 ∨
      payload.length % 2 ^ 32 ≤ body.length ∧
        body.take (payload.length % 2 ^ 32) = payload.take (payload.length % 2 ^ 32)) :
    ∃ error, readNextFramePayload .guarded (guardedHeader payload ++ body) = .error error := by
  rw [readGuarded_header]
  by_cases hmax : maxWalFrameBytes < payload.length % 2 ^ 32
  · exact ⟨_, by simp only [hmax]; rfl⟩
  obtain ⟨hlong, hbody⟩ := hseen.resolve_left hmax
  have hlong : ¬ body.length < payload.length % 2 ^ 32 := by omega
  -- The announced part is shorter than the payload, so it is another payload.
  have hother : payload.take (payload.length % 2 ^ 32) ≠ payload := by
    intro h
    have hlen := congrArg length h
    rw [length_take] at hlen
    omega
  have hmismatch : (crc32 (leBytes 4 (payload.length % 2 ^ 32) ++ payload)).toNat ≠
      (crc32 (leBytes 4 (payload.length % 2 ^ 32) ++
        body.take (payload.length % 2 ^ 32))).toNat := by
    rw [hbody]
    intro h
    exact hother (hcrc payload hpayload (UInt32.toNat_inj.mp h).symm)
  exact ⟨_, by simp only [hmax, hlong, hmismatch, ne_eq, if_false]; rfl⟩

/-- A payload that is not readable stops the scan. -/
theorem scan_unreadable {format : WalFrameFormat} {payload : Bytes}
    (hpayload : record.payload = some payload) (hseen : record.LengthSeen format)
    (hbad : ¬ Readable format payload) (fileLen : Nat) (rest : Bytes) (replay : WalReplay) :
    ∃ error, scan (readNextFramePayload format) (replayStep fileLen)
      (encodePayload format payload ++ rest) replay = .error error := by
  have hne : encodePayload format payload ++ rest ≠ [] := by
    simp [encodePayload_ne_nil]
  by_cases hfit : (olderBody format payload).length ≤ maxWalFrameBytes
  · -- The frame is read, so it is the decoder that refuses it.
    have hread := readNextFramePayload_frame hfit rest
    cases hdecode : decodeWalPayload payload with
    | ok decoded => exact absurd ⟨hfit, by rw [hdecode]; rfl⟩ hbad
    | error error =>
      exact ⟨error, scan_step_error hne hread (replayStep_error hdecode fileLen replay _)⟩
  by_cases hformat : format = .guarded
  · subst hformat
    have hbig : maxWalFrameBytes < payload.length := not_le.mp hfit
    have hmod := Nat.mod_le payload.length (2 ^ 32)
    have hlong : payload.length % 2 ^ 32 ≤ (payload ++ rest).length := by
      rw [length_append]
      omega
    obtain ⟨error, herror⟩ := readGuarded_oversized hpayload hseen hbig
      (.inr ⟨hlong, take_append_of_le_length hmod⟩)
    exact ⟨error, scan_read_error hne herror replay⟩
  · have hsmall : (olderBody format payload).length < 2 ^ 32 := by
      cases format with
      | guarded => exact absurd rfl hformat
      | checksummed | legacy => exact hseen payload hpayload
    refine ⟨⟨.invalidData, "WAL frame length exceeds maximum"⟩, scan_read_error hne ?_ replay⟩
    rw [readNextFramePayload_older hformat hne, encodePayload_older hformat,
      append_assoc, readOlderFrame, readU32_append, Nat.mod_eq_of_lt hsmall]
    exact if_pos (not_le.mp hfit)

/-- Any accepted record either stops the scan or adds at most its own bytes, and
strictly fewer when it is not replayable. -/
theorem guardedScan_record_bytes (haccepted : record.Accepted) (hcrc : record.NoChecksumCollision)
    (fileLen : Nat) (rest : Bytes) (replay : WalReplay) :
    (∃ error, guardedScan fileLen (record.frame .guarded ++ rest) replay = .error error) ∨
    ∃ next, guardedScan fileLen (record.frame .guarded ++ rest) replay =
        guardedScan fileLen rest next ∧
      commandsBytes next.commands ≤
        commandsBytes replay.commands + commandsBytes record.commands ∧
      (¬ record.Replayable → commandsBytes next.commands <
        commandsBytes replay.commands + commandsBytes record.commands) := by
  by_cases hgood : record.Replayable
  · obtain ⟨next, hscan, hnext⟩ := guardedScan_records (forall_mem_singleton.mpr haccepted)
      (forall_mem_singleton.mpr hgood) fileLen rest replay
    simp only [flatMap_singleton] at hscan hnext
    exact .inr ⟨next, hscan, by simp [hnext], fun h => absurd hgood h⟩
  cases hpayload : record.payload with
  | none =>
    have hwf := (commands_of_no_payload haccepted hpayload).2
    exact absurd ⟨hwf, by simp [hpayload]⟩ hgood
  | some payload =>
    obtain ⟨args, hargs, rfl⟩ := payload_eq_some hpayload
    rw [frame_of_payload hpayload]
    by_cases hread : Readable .guarded (commandPayload args)
    · have hfit : (commandPayload args).length ≤ maxWalFrameBytes := hread.fits
      have hbad : ¬ record.WellFormed := by
        intro hwf
        refine hgood ⟨hwf, ?_⟩
        simpa [hpayload] using hfit
      obtain ⟨checked, hdecode⟩ := decodes_payloadCommands hread.decodes
      have hless := (decodeRecord hargs hfit).2 hbad _ checked hdecode
      obtain ⟨next, hstep, hnext⟩ := replayStep_ok hdecode fileLen replay
        (encodeGuardedPayload (commandPayload args) ++ rest)
      refine .inr ⟨next, scan_frame (readNextFramePayload_consumes .guarded)
        (readGuarded_frame hfit rest) hstep, ?_, fun _ => ?_⟩
      all_goals
        rw [hnext, commandsBytes_append]
        omega
    · have hseen : record.LengthSeen .guarded := hcrc
      exact .inl (scan_unreadable hpayload hseen hread fileLen rest replay)

theorem guardedScan_records_bytes (haccepted : ∀ record ∈ records, record.Accepted)
    (hcrc : ∀ record ∈ records, record.NoChecksumCollision) (fileLen : Nat) (rest : Bytes)
    (replay : WalReplay) :
    (∃ error, guardedScan fileLen (records.flatMap (frame .guarded) ++ rest) replay =
        .error error) ∨
    ∃ next, guardedScan fileLen (records.flatMap (frame .guarded) ++ rest) replay =
        guardedScan fileLen rest next ∧
      commandsBytes next.commands ≤
        commandsBytes replay.commands + commandsBytes (records.flatMap commands) ∧
      ((∃ record ∈ records, ¬ record.Replayable) → commandsBytes next.commands <
        commandsBytes replay.commands + commandsBytes (records.flatMap commands)) := by
  induction records generalizing replay with
  | nil => exact .inr ⟨replay, rfl, by simp, by simp⟩
  | cons record records ih =>
    rw [flatMap_cons, append_assoc, flatMap_cons]
    simp only [commandsBytes_append]
    rcases guardedScan_record_bytes (haccepted record mem_cons_self)
      (hcrc record mem_cons_self) fileLen
      (records.flatMap (frame .guarded) ++ rest) replay with herror | ⟨mid, hhead, hle, hlt⟩
    · exact .inl herror
    rw [hhead]
    rcases ih (fun r hr => haccepted r (mem_cons_of_mem _ hr))
      (fun r hr => hcrc r (mem_cons_of_mem _ hr)) mid with
      herror | ⟨next, htail, hle', hlt'⟩
    · exact .inl herror
    refine .inr ⟨next, htail, by omega, ?_⟩
    rintro ⟨bad, hmem, hbad⟩
    rcases mem_cons.mp hmem with rfl | hmem
    · have := hlt hbad
      omega
    · have := hlt' ⟨bad, hmem, hbad⟩
      omega

/-! ## The frame the cut falls in -/

/-- What is left of the record's frame reads as a torn write: the header is
incomplete, or it announces a legal length that is not there. -/
def WalRecord.TornReadable (record : WalRecord) (tail : Bytes) : Prop :=
  ∀ payload ∈ record.payload, tail.length < 16 ∨
    payload.length % 2 ^ 32 ≤ maxWalFrameBytes ∧
      tail.length < 16 + payload.length % 2 ^ 32

instance (record : WalRecord) (tail : Bytes) : Decidable (record.TornReadable tail) :=
  inferInstanceAs (Decidable (∀ payload ∈ record.payload, _))

variable {generation : Generation} {m : Nat}

private theorem frame_take {payload : Bytes} (hpayload : record.payload = some payload)
    (hm : 16 ≤ m) :
    (record.frame .guarded).take m = guardedHeader payload ++ payload.take (m - 16) := by
  have hlen := guardedHeader_length payload
  rw [frame_of_payload hpayload, encodeGuardedPayload, take_append,
    take_of_length_le (by omega), hlen]

private theorem payload_of_cut (hm : m < (record.frame .guarded).length) :
    ∃ payload, record.payload = some payload ∧ m < 16 + payload.length := by
  cases hpayload : record.payload with
  | none => simp [frame_of_no_payload .guarded hpayload] at hm
  | some payload =>
    simpa [frame_of_payload hpayload, encodeGuardedPayload, guardedHeader_length] using hm

theorem guardedScan_tail (hm : m < (record.frame .guarded).length)
    (h : record.TornReadable ((record.frame .guarded).take m)) (fileLen : Nat)
    (replay : WalReplay) :
    guardedScan fileLen ((record.frame .guarded).take m) replay =
      .ok ⟨replay, (record.frame .guarded).take m⟩ := by
  by_cases hnil : (record.frame .guarded).take m = []
  · rw [hnil]
    rfl
  refine scan_torn hnil ?_ replay
  obtain ⟨payload, hpayload, hlen⟩ := payload_of_cut hm
  have htail : ((record.frame .guarded).take m).length = m := by
    rw [length_take]
    omega
  by_cases hheader : m < 16
  · rw [frame_of_payload hpayload]
    exact readGuarded_short payload hheader
  · rcases h payload hpayload with hshort | ⟨hmax, hshort⟩
    · omega
    have hannounced : (payload.take (m - 16)).length < payload.length % 2 ^ 32 := by
      rw [length_take]
      omega
    rw [frame_take hpayload (by omega), readGuarded_header]
    simp only [Nat.not_lt.mpr hmax, hannounced, if_true, if_false]

theorem guardedScan_tail_error (hcrc : record.NoChecksumCollision)
    (hm : m < (record.frame .guarded).length)
    (h : ¬ record.TornReadable ((record.frame .guarded).take m)) (fileLen : Nat)
    (replay : WalReplay) :
    ∃ error, guardedScan fileLen ((record.frame .guarded).take m) replay = .error error := by
  obtain ⟨payload, hpayload, hlen⟩ := payload_of_cut hm
  have htail : ((record.frame .guarded).take m).length = m := by
    rw [length_take]
    omega
  have hseen : 16 ≤ m ∧ (maxWalFrameBytes < payload.length % 2 ^ 32 ∨
      16 + payload.length % 2 ^ 32 ≤ m) := by
    by_contra hno
    refine h fun other hother => ?_
    obtain rfl : payload = other := by simpa [hpayload] using hother
    omega
  obtain ⟨hheader, hseen⟩ := hseen
  have hbig : maxWalFrameBytes < payload.length := by
    unfold maxWalFrameBytes at hseen ⊢
    omega
  have hbody : maxWalFrameBytes < payload.length % 2 ^ 32 ∨
      payload.length % 2 ^ 32 ≤ (payload.take (m - 16)).length ∧
        (payload.take (m - 16)).take (payload.length % 2 ^ 32) =
          payload.take (payload.length % 2 ^ 32) := by
    refine hseen.imp_right fun hle => ⟨?_, ?_⟩
    · rw [length_take]
      omega
    · rw [take_take, Nat.min_eq_left (by omega)]
  obtain ⟨error, herror⟩ := readGuarded_oversized hpayload hcrc hbig hbody
  rw [frame_take hpayload hheader]
  exact ⟨error, scan_read_error (by simp [guardedHeader, walFrameMagic]) herror replay⟩

/-! ## Recovery of a cut log -/

section Recovery

variable (generation : Generation) (records later : List WalRecord) (cut : Nat)

/-- The records whose frames lie completely before the cut. -/
def completeRecords : List WalRecord :=
  completeFrames (frame .guarded) records (cut - walHeaderLen)

/-- The record that the cut falls in, if any. -/
def cutRecord : Option WalRecord :=
  (remainingFrames (frame .guarded) records (cut - walHeaderLen)).head?

/-- What the cut leaves of that record's frame. -/
def tornBytes : Bytes :=
  tornTail (frame .guarded) records (cut - walHeaderLen)

/-- **Torn-tail atomicity.**  The records are appended to a new log and its file
is cut. Opening and replaying the cut file returns the commands of the complete
records and leaves the file at their end; after further appends the log reopens
and replays to those commands followed by the new ones. -/
def RecoversCut : Prop :=
  ∀ (create : Bool) (fresh : Generation),
    ∃ written opened replay healed,
      (Wal.newWal generation).appendAll records = .ok written ∧
      Wal.openIn (written.file.take cut) create fresh = .ok opened ∧
      opened.replayFrom none = (.ok replay, healed) ∧
      replay.commands = (completeRecords records cut).flatMap commands ∧
      healed.file = walHeaderBytes generation ++
        (completeRecords records cut).flatMap (frame .guarded) ∧
      ∃ next again,
        healed.appendAll later = .ok next ∧
        Wal.openIn next.file create fresh = .ok next ∧
        next.replayFrom none = (.ok again, next) ∧
        again.commands = (completeRecords records cut ++ later).flatMap commands

end Recovery

/-- An open guarded log with the given bytes behind its header. -/
def guardedLog (generation : Generation) (body : Bytes) : Wal :=
  ⟨walHeaderBytes generation ++ body, .guarded, walHeaderLen, generation⟩

theorem guardedLog_replay (generation : Generation) (body : Bytes) :
    (guardedLog generation body).replayFrom none =
      match guardedScan (guardedLog generation body).file.length body ⟨[], none⟩ with
      | .error error => (.error error, guardedLog generation body)
      | .ok ⟨replay, torn⟩ =>
        if torn.isEmpty then
          (.ok replay, guardedLog generation body)
        else
          (.ok { replay with checkedTailOffset := none },
            (guardedLog generation body).rollbackTo
              ((guardedLog generation body).file.length - torn.length)) := by
  have hne : (guardedLog generation body).file ≠ [] := by
    simp [guardedLog, walHeaderBytes, walMagic]
  exact replayFrom_none rfl (walHeaderBytes_length generation) hne

theorem guardedLog_rollback (generation : Generation) (kept torn : Bytes) :
    (guardedLog generation (kept ++ torn)).rollbackTo
        ((guardedLog generation (kept ++ torn)).file.length - torn.length) =
      guardedLog generation kept := by
  have hsplit : (guardedLog generation (kept ++ torn)).file =
      (walHeaderBytes generation ++ kept) ++ torn := by simp [guardedLog]
  exact rollbackTo_tail hsplit

/-- Replayable records followed by a tail that scans as torn are recovered, and
the tail is removed. -/
theorem guardedLog_recover (generation : Generation) (tail : Bytes)
    (haccepted : ∀ record ∈ records, record.Accepted) (h : ∀ record ∈ records, record.Replayable)
    (htail : ∀ fileLen replay, guardedScan fileLen tail replay = .ok ⟨replay, tail⟩) :
    ∃ replay,
      (guardedLog generation (records.flatMap (frame .guarded) ++ tail)).replayFrom none =
        (.ok replay, guardedLog generation (records.flatMap (frame .guarded))) ∧
      replay.commands = records.flatMap commands := by
  obtain ⟨replay, hscan, hcommands⟩ := guardedScan_records haccepted h
    (guardedLog generation (records.flatMap (frame .guarded) ++ tail)).file.length
    tail ⟨[], none⟩
  rw [guardedLog_replay, hscan, htail]
  by_cases hnil : tail = []
  · refine ⟨replay, ?_, hcommands⟩
    simp [hnil]
  · refine ⟨{ replay with checkedTailOffset := none }, ?_, hcommands⟩
    simp only [hnil, List.isEmpty_iff, if_false, guardedLog_rollback]

/-- Whatever the complete frames do, a tail that stops the scan fails the replay. -/
theorem guardedLog_tail_error (generation : Generation) {tail : Bytes}
    (haccepted : ∀ record ∈ records, record.Accepted)
    (hcrc : ∀ record ∈ records, record.NoChecksumCollision)
    (htail : ∀ fileLen replay, ∃ error, guardedScan fileLen tail replay = .error error) :
    ∃ error,
      (guardedLog generation (records.flatMap (frame .guarded) ++ tail)).replayFrom none =
        (.error error, guardedLog generation (records.flatMap (frame .guarded) ++ tail)) := by
  rw [guardedLog_replay]
  rcases guardedScan_records_bytes haccepted hcrc
    (guardedLog generation (records.flatMap (frame .guarded) ++ tail)).file.length
    tail ⟨[], none⟩ with ⟨error, herror⟩ | ⟨next, hscan, -, -⟩
  · exact ⟨error, by rw [herror]⟩
  · obtain ⟨error, herror⟩ := htail
      (guardedLog generation (records.flatMap (frame .guarded) ++ tail)).file.length next
    exact ⟨error, by rw [hscan, herror]⟩

/-- A replay that succeeds with all the commands met only replayable records. -/
theorem guardedLog_replayable (tail : Bytes)
    (haccepted : ∀ record ∈ records, record.Accepted)
    (hcrc : ∀ record ∈ records, record.NoChecksumCollision)
    (htail : ∀ fileLen replay, (∃ error, guardedScan fileLen tail replay = .error error) ∨
      guardedScan fileLen tail replay = .ok ⟨replay, tail⟩) {replay : WalReplay} {after : Wal}
    (hreplay :
      (guardedLog generation (records.flatMap (frame .guarded) ++ tail)).replayFrom none =
        (.ok replay, after)) (hcommands : replay.commands = records.flatMap commands) :
    ∀ record ∈ records, record.Replayable := by
  rw [guardedLog_replay] at hreplay
  by_contra hbad
  push Not at hbad
  rcases guardedScan_records_bytes haccepted hcrc
    (guardedLog generation (records.flatMap (frame .guarded) ++ tail)).file.length
    tail ⟨[], none⟩ with ⟨error, herror⟩ | ⟨next, hscan, -, hlt⟩
  · simp [herror] at hreplay
  have hless := hlt hbad
  rw [hscan] at hreplay
  rcases htail (guardedLog generation (records.flatMap (frame .guarded) ++ tail)).file.length
    next with ⟨error, herror⟩ | hend
  · simp [herror] at hreplay
  have hsame : replay.commands = next.commands := by
    rw [hend] at hreplay
    dsimp only at hreplay
    split at hreplay
    all_goals
      injection hreplay with hreplay
      injection hreplay with hreplay
      rw [← hreplay]
  rw [← hsame, hcommands] at hless
  simp [commandsBytes] at hless

/-- No longer run of records lies before the cut. -/
theorem completeRecords_longest (records : List WalRecord) (cut k : Nat)
    (h : walHeaderLen + ((records.take k).flatMap (frame .guarded)).length ≤ cut) :
    records.take k <+: completeRecords records cut :=
  completeFrames_longest (frame .guarded) records _ k (by omega)

variable {cut : Nat}

/-- Cutting behind the header keeps the header, the complete frames and the
bytes of the frame that is cut. -/
theorem guardedLog_cut (generation : Generation) (records : List WalRecord)
    (hcut : walHeaderLen ≤ cut) :
    (walHeaderBytes generation ++ records.flatMap (frame .guarded)).take cut =
      walHeaderBytes generation ++
        ((completeRecords records cut).flatMap (frame .guarded) ++ tornBytes records cut) := by
  have hlen := walHeaderBytes_length generation
  rw [take_append, take_of_length_le (by omega), hlen, take_flatMap]
  rfl

/-- The torn bytes scan as torn when the cut record is readable that far. -/
theorem tornBytes_scan
    (h : ∀ record ∈ cutRecord records cut, record.TornReadable (tornBytes records cut))
    (fileLen : Nat) (replay : WalReplay) :
    guardedScan fileLen (tornBytes records cut) replay = .ok ⟨replay, tornBytes records cut⟩ := by
  rcases tornTail_eq (frame .guarded) records (cut - walHeaderLen) with
    ⟨-, hnil⟩ | ⟨record, more, hremaining, m, hm, htail⟩
  · rw [tornBytes, hnil]
    rfl
  · have hread := h record (by simp [cutRecord, hremaining])
    rw [tornBytes, htail] at hread ⊢
    exact guardedScan_tail hm hread fileLen replay

/-- Otherwise they stop the scan. -/
theorem tornBytes_scan_error (hrecord : record ∈ cutRecord records cut)
    (hcrc : record.NoChecksumCollision) (h : ¬ record.TornReadable (tornBytes records cut))
    (fileLen : Nat) (replay : WalReplay) :
    ∃ error, guardedScan fileLen (tornBytes records cut) replay = .error error := by
  rcases tornTail_eq (frame .guarded) records (cut - walHeaderLen) with
    ⟨hnone, -⟩ | ⟨first, more, hremaining, m, hm, htail⟩
  · simp [cutRecord, hnone] at hrecord
  · obtain rfl : first = record := by simpa [cutRecord, hremaining] using hrecord
    rw [tornBytes, htail] at h ⊢
    exact guardedScan_tail_error hcrc hm h fileLen replay

theorem mem_of_mem_completeRecords (h : record ∈ completeRecords records cut) :
    record ∈ records := by
  rw [← completeFrames_append_remaining (frame .guarded) records (cut - walHeaderLen)]
  exact mem_append_left _ h

theorem mem_of_mem_cutRecord (h : record ∈ cutRecord records cut) : record ∈ records := by
  rw [← completeFrames_append_remaining (frame .guarded) records (cut - walHeaderLen)]
  exact mem_append_right _ (mem_of_mem_head? h)

/-- `RecoversCut` with the opening, cutting and appending carried out. -/
theorem recoversCut_replays {later : List WalRecord}
    (haccepted : ∀ record ∈ records ++ later, record.Accepted) (hcut : walHeaderLen ≤ cut) :
    RecoversCut generation records later cut ↔
      ∃ replay,
        (guardedLog generation ((completeRecords records cut).flatMap (frame .guarded) ++
            tornBytes records cut)).replayFrom none =
          (.ok replay, guardedLog generation
            ((completeRecords records cut).flatMap (frame .guarded))) ∧
        replay.commands = (completeRecords records cut).flatMap commands ∧
        ∃ again,
          (guardedLog generation ((completeRecords records cut ++ later).flatMap
              (frame .guarded))).replayFrom none =
            (.ok again, guardedLog generation ((completeRecords records cut ++ later).flatMap
              (frame .guarded))) ∧
          again.commands = (completeRecords records cut ++ later).flatMap commands := by
  have hwrite : (newWal generation).appendAll records =
      .ok (guardedLog generation (records.flatMap (frame .guarded))) :=
    appendAll_accepted (fun r hr => haccepted r (mem_append_left _ hr)) _
  have hmore : (guardedLog generation
        ((completeRecords records cut).flatMap (frame .guarded))).appendAll later =
      .ok (guardedLog generation
        ((completeRecords records cut ++ later).flatMap (frame .guarded))) := by
    rw [appendAll_accepted (fun r hr => haccepted r (mem_append_right _ hr))]
    simp [guardedLog, appendEncodedFrames]
  have hopen (body : Bytes) (create : Bool) (fresh : Generation) :
      openIn (walHeaderBytes generation ++ body) create fresh =
        .ok (guardedLog generation body) :=
    openIn_guarded generation body create fresh
  have hcutopen (create : Bool) (fresh : Generation) :=
    hopen ((completeRecords records cut).flatMap (frame .guarded) ++ tornBytes records cut)
      create fresh
  rw [← guardedLog_cut generation records hcut] at hcutopen
  constructor
  · intro h
    obtain ⟨written, opened, replay, healed, hwritten, hopened, hreplay, hcommands, hfile,
      next, again, hnext, -, hagain, hcommands'⟩ := h true generation
    obtain rfl : guardedLog generation (records.flatMap (frame .guarded)) = written := by
      simpa [hwrite] using hwritten
    obtain rfl := Except.ok.inj ((hcutopen true generation).symm.trans hopened)
    have hhealed : healed = guardedLog generation
        ((completeRecords records cut).flatMap (frame .guarded)) := by
      obtain ⟨hformat, hheader, hgeneration⟩ := replayFrom_header hreplay
      exact Wal.ext hfile hformat hheader hgeneration
    subst hhealed
    obtain rfl := Except.ok.inj (hmore.symm.trans hnext)
    exact ⟨replay, hreplay, hcommands, again, hagain, hcommands'⟩
  · rintro ⟨replay, hreplay, hcommands, again, hagain, hcommands'⟩ create fresh
    exact ⟨_, _, replay, _, hwrite, hcutopen create fresh, hreplay, hcommands, rfl,
      _, again, hmore, hopen _ create fresh, hagain, hcommands'⟩

/-- What may be recovered of a cut log: the records before the cut and the later
ones can be replayed, and the record under the cut reads as a torn write. -/
def CutReplayable (records later : List WalRecord) (cut : Nat) : Prop :=
  (∀ record ∈ completeRecords records cut, record.Replayable) ∧
  (∀ record ∈ cutRecord records cut, record.TornReadable (tornBytes records cut)) ∧
  ∀ record ∈ later, record.Replayable

section Exact

variable {generation : Generation} {records later : List WalRecord} {cut : Nat}

private theorem kept_mem {record : WalRecord} (h : record ∈ completeRecords records cut) :
    record ∈ records ++ later :=
  mem_append_left _ (mem_of_mem_completeRecords h)

private theorem kept_append_mem {record : WalRecord}
    (h : record ∈ completeRecords records cut ++ later) : record ∈ records ++ later :=
  (mem_append.mp h).elim kept_mem (mem_append_right _)

theorem recoversCut_of_cutReplayable
    (haccepted : ∀ record ∈ records ++ later, record.Accepted)
    (hcut : walHeaderLen ≤ cut) (h : CutReplayable records later cut) :
    RecoversCut generation records later cut := by
  obtain ⟨hbefore, htorn, hlater⟩ := h
  obtain ⟨replay, hreplay, hcommands⟩ := guardedLog_recover generation _
    (fun r hr => haccepted r (kept_mem hr)) hbefore (tornBytes_scan htorn)
  obtain ⟨again, hagain, hcommands'⟩ := guardedLog_recover generation []
    (fun r hr => haccepted r (kept_append_mem hr))
    (fun r hr => (mem_append.mp hr).elim (hbefore r) (hlater r)) (fun _ _ => rfl)
  rw [append_nil] at hagain
  exact (recoversCut_replays haccepted hcut).mpr
    ⟨replay, hreplay, hcommands, again, hagain, hcommands'⟩

theorem cutReplayable_of_recoversCut
    (haccepted : ∀ record ∈ records ++ later, record.Accepted)
    (hcrc : ∀ record ∈ records ++ later, record.NoChecksumCollision)
    (hcut : walHeaderLen ≤ cut) (h : RecoversCut generation records later cut) :
    CutReplayable records later cut := by
  obtain ⟨replay, hreplay, hcommands, again, hagain, hcommands'⟩ :=
    (recoversCut_replays haccepted hcut).mp h
  have htorn : ∀ record ∈ cutRecord records cut, record.TornReadable (tornBytes records cut) := by
    intro record hrecord
    by_contra hbad
    have hcrc' := hcrc record (mem_append_left _ (mem_of_mem_cutRecord hrecord))
    obtain ⟨error, herror⟩ := guardedLog_tail_error generation
      (fun r hr => haccepted r (kept_mem hr)) (fun r hr => hcrc r (kept_mem hr))
      (tornBytes_scan_error hrecord hcrc' hbad)
    rw [herror] at hreplay
    cases hreplay
  have hbefore := guardedLog_replayable _ (fun r hr => haccepted r (kept_mem hr))
    (fun r hr => hcrc r (kept_mem hr))
    (fun fileLen replay => .inr (tornBytes_scan htorn fileLen replay)) hreplay hcommands
  have hafter := guardedLog_replayable [] (fun r hr => haccepted r (kept_append_mem hr))
    (fun r hr => hcrc r (kept_append_mem hr)) (fun _ _ => .inr rfl)
    (by simpa using hagain) hcommands'
  exact ⟨hbefore, htorn, fun r hr => hafter r (mem_append_right _ hr)⟩

end Exact

/-- **Exactly the replayable records are recovered.**  For accepted records and
every cut behind the header, recovery keeps its promise if and only if the
records before the cut and the later ones can be replayed, and what is left of
the record under the cut reads as a torn write. -/
theorem recoversCut_iff (generation : Generation) {records later : List WalRecord}
    (haccepted : ∀ record ∈ records ++ later, record.Accepted)
    (hcrc : ∀ record ∈ records ++ later, record.NoChecksumCollision) {cut : Nat}
    (hcut : walHeaderLen ≤ cut) :
    RecoversCut generation records later cut ↔ CutReplayable records later cut :=
  ⟨cutReplayable_of_recoversCut haccepted hcrc hcut, recoversCut_of_cutReplayable haccepted hcut⟩

/-- The checksum assumption is about payloads of at least `2 ^ 32` bytes. -/
theorem noChecksumCollision_of_small (h : ∀ payload ∈ record.payload, payload.length < 2 ^ 32) :
    record.NoChecksumCollision := by
  intro payload hpayload announced _
  have hmod : announced = payload.length := Nat.mod_eq_of_lt (h payload hpayload)
  rw [hmod, take_length]

/-- A cut inside the header of the first frame, then a batch of two commands. -/
theorem recoversCut_torn_set :
    RecoversCut ⟨List.replicate 16 1, rfl⟩
      [.batch [[[0x53, 0x45, 0x54], [0x6b], [0x76]]]]
      [.batch [[[0x44, 0x45, 0x4c], [0x6b]], [[0x49, 0x4e, 0x43, 0x52], [0x6e]]]]
      (walHeaderLen + 10) := by
  refine (recoversCut_iff _ ?_ ?_ (by decide)).mpr ⟨by decide, by decide, by decide⟩
  · intro record hrecord
    rcases mem_append.mp hrecord with h | h <;> rw [mem_singleton.mp h] <;>
      exact ⟨_, rfl⟩
  · intro record hrecord
    refine noChecksumCollision_of_small ?_
    rcases mem_append.mp hrecord with h | h <;> rw [mem_singleton.mp h] <;> decide

/-- No cut behind a record that is larger than a legal frame is recovered. -/
theorem not_recoversCut_of_oversized (generation : Generation) {payload : Bytes}
    (haccepted : record.Accepted) (hpayload : record.payload = some payload)
    (hbig : maxWalFrameBytes < payload.length) (hsmall : payload.length < 2 ^ 32)
    (hcut : walHeaderLen + (payload.length + 16) ≤ cut) :
    ¬ RecoversCut generation [record] [] cut := by
  have hfit : 16 + payload.length ≤ cut - walHeaderLen := by omega
  have hcomplete : record ∈ completeRecords [record] cut := by
    simp [completeRecords, completeFrames, frame_of_payload hpayload, encodeGuardedPayload,
      guardedHeader_length, hfit]
  intro h
  have hreplayable := cutReplayable_of_recoversCut (forall_mem_singleton.mpr haccepted)
    (forall_mem_singleton.mpr (noChecksumCollision_of_small (by simpa [hpayload] using hsmall)))
    (by omega) h
  have hread := (hreplayable.1 record hcomplete).2 payload hpayload
  omega

/-- The payload of a `SET` of a key of one byte. -/
theorem setPayload_length (value : Bytes) :
    (commandPayload [[0x53, 0x45, 0x54], [0x6b], value]).length = value.length + 20 := by
  simp only [commandPayload_length, map_cons, map_nil, sum_cons, sum_nil, length_cons, length_nil]
  omega

/-- A `SET` of a value that alone fills the largest legal frame is accepted, and the file it
leaves is not recovered even when it is complete. -/
theorem recoversCut_fails_at_512_MiB :
    let record := WalRecord.batch [[[0x53, 0x45, 0x54], [0x6b], List.replicate maxWalFrameBytes 0]]
    let generation : Generation := ⟨List.replicate 16 1, rfl⟩
    (newWal generation).appendAll [record] =
        .ok (guardedLog generation (record.frame .guarded)) ∧
      ¬ RecoversCut generation [record] [] (walHeaderLen + (maxWalFrameBytes + 36)) := by
  intro record generation
  refine ⟨rfl, not_recoversCut_of_oversized _ ⟨_, rfl⟩ rfl ?_ ?_ ?_⟩
  all_goals rw [setPayload_length, length_replicate]
  · decide
  · decide

end Lux
