import Lux.WalAccepted
import Lux.Runs

/-!
# Appends that fail

An append writes behind the end of the log, syncs it if the policy asks for that, and sets the
length back when something fails. Every file operation may fail, a write after any number of bytes.
A length that cannot be set back poisons the journal: it takes no further record, and no mutation
is acknowledged, until a restart.

So a healthy log holds the acknowledged records and nothing else. That a replay returns their
commands takes more: an append accepts records that no replay reads back.
-/

namespace Lux

open ByteCodec List

namespace Wal

/-- Which file operations of `rollback_to` succeed. -/
structure RollbackRun where
  (setLen seek sync : Bool)

/-- Which file operations of an append succeed; a write that fails has written some bytes. -/
structure AppendRun where
  (endOffset position setLen sync : Bool)
  failedAfter : Option Nat
  rollback : RollbackRun

def rollbackUnder (wal : Wal) (offset : Nat) (run : RollbackRun) : Wal × Bool :=
  if run.setLen then (wal.rollbackTo offset, run.seek && run.sync) else (wal, false)

/-- `append_encoded_frames`. -/
def appendFramesUnder (wal : Wal) (frames : Bytes) (run : AppendRun) : Wal × Bool :=
  if !run.position then (wal, false)
  else
    match run.failedAfter with
    | none => (wal.appendEncodedFrames frames, true)
    | some n =>
      let torn := wal.appendEncodedFrames (frames.take n)
      (if run.setLen then torn.rollbackTo wal.file.length else torn, false)

/-- `append_commands` and `append_checked_command`. -/
def appendUnder (wal : Wal) (record : WalRecord) (run : AppendRun) : Wal × Bool :=
  match record.args with
  | .error _ => (wal, false)
  | .ok none => (wal, true)
  | .ok (some args) => wal.appendFramesUnder (encodeCommandFrame wal.frameFormat args) run

end Wal

/-- The journal of a store. -/
structure Journal where
  wal : Wal
  poisoned : Bool

namespace Journal

/-- `append_journal_commands_locked`; `syncs` is the policy that syncs each append. -/
def append (syncs : Bool) (j : Journal) (record : WalRecord) (run : Wal.AppendRun) :
    Journal × Bool :=
  if j.poisoned || !run.endOffset then (j, false)
  else
    let (wal, written) := j.wal.appendUnder record run
    if written && (!syncs || run.sync) then (⟨wal, false⟩, true)
    else
      let (wal, restored) := wal.rollbackUnder j.wal.file.length run.rollback
      (⟨wal, !restored⟩, false)

/-- What becomes of a mutation behind its append: it is applied and its guard completed; a checked
command is rejected and its record removed; the guard is dropped, or the journal has been poisoned
in the meantime. -/
inductive Fate where
  | applied
  | rejected (rollback : Wal.RollbackRun)
  | lost

/-- A mutation, or something else that poisons the journal. -/
inductive Event where
  | mutate (record : WalRecord) (run : Wal.AppendRun) (fate : Fate)
  | poison

/-- The journal, and the records of the mutations that were acknowledged. -/
structure Store where
  journal : Journal
  acknowledged : List WalRecord

def step (syncs : Bool) (s : Store) : Event → Store
  | .mutate record run fate =>
    let (journal, taken) := s.journal.append syncs record run
    match taken, fate with
    | true, .applied => ⟨journal, s.acknowledged ++ [record]⟩
    | true, .rejected rollback =>
      let (wal, restored) := journal.wal.rollbackUnder s.journal.wal.file.length rollback
      { s with journal := ⟨wal, !restored⟩ }
    | true, .lost => { s with journal := ⟨journal.wal, true⟩ }
    | false, _ => { s with journal }
  | .poison => { s with journal := ⟨s.journal.wal, true⟩ }

/-- The state that events lead to from a log. -/
def reached (syncs : Bool) (start : Wal) (events : List Event) : Store :=
  Runs.run (step syncs) ⟨⟨start, false⟩, []⟩ events

/-! ### One append -/

section Append

variable {wal : Wal}

/-- An append writes some bytes behind the end, and all of the record if it succeeds. -/
theorem appendUnder_spec (record : WalRecord) (run : Wal.AppendRun) :
    ∃ tail, (wal.appendUnder record run).1 = wal.appendEncodedFrames tail ∧
      ((wal.appendUnder record run).2 = true →
        wal.append record = .ok (wal.appendEncodedFrames tail)) := by
  have hsame : wal = wal.appendEncodedFrames [] := by simp [Wal.appendEncodedFrames]
  rw [Wal.append_eq, Wal.appendUnder]
  cases record.args with
  | error _ => exact ⟨[], hsame, fun h => by cases h⟩
  | ok args =>
    cases args with
    | none => exact ⟨[], hsame, fun _ => congrArg _ hsame⟩
    | some args =>
      dsimp only
      unfold Wal.appendFramesUnder
      split
      · exact ⟨[], hsame, fun h => by cases h⟩
      · split
        · exact ⟨_, rfl, fun _ => rfl⟩
        · dsimp only
          split
          · exact ⟨[], by simp [Wal.rollbackTo, Wal.appendEncodedFrames], fun h => by cases h⟩
          · exact ⟨_, rfl, fun h => by cases h⟩

/-- Whatever was written is gone when the length is set back. -/
theorem rollbackUnder_tail {tail : Bytes} {rollback : Wal.RollbackRun}
    (h : ((wal.appendEncodedFrames tail).rollbackUnder wal.file.length rollback).2 = true) :
    ((wal.appendEncodedFrames tail).rollbackUnder wal.file.length rollback).1 = wal := by
  unfold Wal.rollbackUnder at h ⊢
  split
  · simp [Wal.rollbackTo, Wal.appendEncodedFrames]
  · simp_all

/-- **How an append ends**: the journal is as it was, or poisoned, or it has the record. -/
theorem append_cases (syncs : Bool) (j : Journal) (record : WalRecord) (run : Wal.AppendRun) :
    j.append syncs record run = (j, false) ∨
      (∃ wal, j.append syncs record run = (⟨wal, true⟩, false)) ∨
        j.poisoned = false ∧ ∃ tail, j.wal.append record = .ok (j.wal.appendEncodedFrames tail) ∧
          j.append syncs record run = (⟨j.wal.appendEncodedFrames tail, false⟩, true) := by
  unfold append
  split
  · exact .inl rfl
  · rename_i hready
    obtain ⟨tail, htail, hrecord⟩ := @appendUnder_spec j.wal record run
    have hhealthy : j.poisoned = false := by
      simp only [Bool.or_eq_true, not_or] at hready
      simpa using hready.1
    dsimp only
    rw [htail]
    split
    · rename_i hdone
      exact .inr (.inr ⟨hhealthy, tail, hrecord (Bool.and_eq_true_iff.mp hdone).1, rfl⟩)
    · cases hrestored : ((j.wal.appendEncodedFrames tail).rollbackUnder j.wal.file.length
          run.rollback).2 with
      | false => exact .inr (.inl ⟨_, rfl⟩)
      | true =>
        left
        rw [rollbackUnder_tail hrestored, Bool.not_true, ← hhealthy]

end Append

/-! ### Runs -/

theorem appendAll_snoc {start wal next : Wal} {records : List WalRecord} {record : WalRecord}
    (h : start.appendAll records = .ok wal) (hnext : wal.append record = .ok next) :
    start.appendAll (records ++ [record]) = .ok next := by
  induction records generalizing start with
  | nil =>
    cases h
    simp [Wal.appendAll, hnext]
  | cons first records ih =>
    rw [List.cons_append, Wal.appendAll] at *
    split at h
    · cases h
    · exact ih h

/-- A healthy log holds the records that were acknowledged, in their order, and nothing else. -/
def Store.Exact (start : Wal) (s : Store) : Prop :=
  s.journal.poisoned = false → start.appendAll s.acknowledged = .ok s.journal.wal

variable {syncs : Bool} {s : Store} {start : Wal}

theorem exact_step (h : s.Exact start) (event : Event) : (step syncs s event).Exact start := by
  cases event with
  | poison => exact nofun
  | mutate record run fate =>
    obtain hsame | ⟨wal, hpoisoned⟩ | ⟨hhealthy, tail, hrecord, htaken⟩ :=
      append_cases syncs s.journal record run
    · simpa only [step, hsame] using h
    · simp [step, hpoisoned, Store.Exact]
    · simp only [step, htaken]
      cases fate with
      | applied => exact fun _ => appendAll_snoc (h hhealthy) hrecord
      | rejected rollback =>
        intro hrestored
        have hback := rollbackUnder_tail (by simpa using hrestored)
        exact (h hhealthy).trans (congrArg _ hback.symm)
      | lost => exact nofun

/-- Behind a poisoned journal nothing is acknowledged. -/
theorem step_poisoned (h : s.journal.poisoned = true) (event : Event) :
    (step syncs s event).journal.poisoned = true ∧
      (step syncs s event).acknowledged = s.acknowledged := by
  cases event with
  | mutate record run fate => simp [step, append, h]
  | poison => exact ⟨rfl, rfl⟩

/-! ### Replays -/

end Journal

/-- The record's frame can be read in a log of the format, and it gives the record's commands. -/
def WalRecord.ReadsBack (format : WalFrameFormat) (record : WalRecord) : Prop :=
  record.WellFormed ∧
    ∀ payload ∈ record.payload, (olderBody format payload).length ≤ maxWalFrameBytes

instance (format : WalFrameFormat) (record : WalRecord) : Decidable (record.ReadsBack format) :=
  inferInstanceAs (Decidable (_ ∧ _))

/-- Opening the file of a log and replaying it returns these commands and leaves the file alone. -/
def Wal.Recovers (wal : Wal) (commands : List Command) : Prop :=
  ∀ create fresh, ∃ replay,
    Wal.recover wal.file create fresh = (.ok replay, wal.file) ∧ replay.commands = commands

open WalRecord

/-- A log of readable payloads recovers their commands. -/
theorem Wal.Holds.recovers {wal : Wal} {payloads : List Bytes} (h : wal.Holds payloads)
    (hread : ∀ payload ∈ payloads, Readable wal.frameFormat payload) :
    wal.Recovers (payloads.flatMap payloadCommands) := by
  intro create fresh
  obtain ⟨replay, hreplay, hcommands⟩ := @Wal.Holds.replayFrom_boundary wal payloads h 0 hread
    none rfl
  exact ⟨replay, by simp only [Wal.recover, h.reopens, hreplay], hcommands⟩

theorem Wal.Recovers.replaysAppends {start written : Wal} {records : List WalRecord}
    {commands : List Command} (h : written.Recovers commands)
    (hwritten : start.appendAll records = .ok written) : start.ReplaysAppends records := by
  intro other hother create fresh
  obtain rfl : written = other := Except.ok.inj (hwritten.symm.trans hother)
  obtain ⟨replay, hreplay, -⟩ := h create fresh
  cases hopen : Wal.openIn written.file create fresh with
  | error e => simp [Wal.recover, hopen] at hreplay
  | ok opened =>
    simp only [Wal.recover, hopen, Prod.mk.injEq] at hreplay
    exact ⟨opened, replay, _, rfl, Prod.ext hreplay.1 rfl⟩

/-- What a readable frame gives back has at most the bytes of its record, and fewer if the record
is not well formed. -/
theorem WalRecord.payloadCommands_bytes {format : WalFrameFormat} {record : WalRecord}
    (haccepted : record.Accepted) (hreplays : record.Replays format) :
    commandsBytes (record.payloads.flatMap payloadCommands) ≤ commandsBytes record.commands ∧
      (¬ record.WellFormed →
        commandsBytes (record.payloads.flatMap payloadCommands) <
          commandsBytes record.commands) := by
  by_cases hwf : record.WellFormed
  · rw [(readable_of_wellFormed haccepted hwf hreplays.2).2]
    exact ⟨le_rfl, fun h => absurd hwf h⟩
  have hless : commandsBytes (record.payloads.flatMap payloadCommands) <
      commandsBytes record.commands := by
    cases hpayload : record.payload with
    | none => exact absurd (commands_of_no_payload haccepted hpayload).2 hwf
    | some payload =>
      obtain ⟨args, hargs, rfl⟩ := payload_eq_some hpayload
      have hmem : record.payloads = [commandPayload args] := by simp [payloads, hpayload]
      have hlen := le_trans (length_le_olderBody format _) (hreplays.2 _ hpayload)
      have hread := (replays_iff haccepted).mp hreplays (commandPayload args)
        (by rw [hmem]; exact mem_singleton_self _)
      cases hdecode : decodeWalPayload (commandPayload args) with
      | error e => simpa [hdecode, Except.isOk, Except.toBool] using hread.decodes
      | ok found =>
        have hbytes := (decodeRecord hargs hlen).2 hwf found.1 found.2 hdecode
        simpa [hmem, payloadCommands, hdecode] using hbytes
  exact ⟨hless.le, fun _ => hless⟩

/-- Records whose frames are readable and give all their bytes back are well formed. -/
theorem wellFormed_of_payloadCommands {format : WalFrameFormat} {records : List WalRecord}
    (haccepted : ∀ record ∈ records, record.Accepted)
    (hreplays : ∀ record ∈ records, record.Replays format) :
    commandsBytes ((records.flatMap payloads).flatMap payloadCommands) ≤
        commandsBytes (records.flatMap commands) ∧
      (commandsBytes ((records.flatMap payloads).flatMap payloadCommands) =
        commandsBytes (records.flatMap commands) → ∀ record ∈ records, record.WellFormed) := by
  induction records with
  | nil => exact ⟨le_rfl, nofun⟩
  | cons record records ih =>
    obtain ⟨hown, hbad⟩ := payloadCommands_bytes (haccepted record mem_cons_self)
      (hreplays record mem_cons_self)
    obtain ⟨hrest, hall⟩ := ih (fun r hr => haccepted r (mem_cons_of_mem _ hr))
      fun r hr => hreplays r (mem_cons_of_mem _ hr)
    simp only [flatMap_cons, flatMap_append, commandsBytes_append]
    refine ⟨by omega, fun heq => ?_⟩
    have hwf : record.WellFormed := by
      by_contra hnot
      have hless := hbad hnot
      omega
    exact forall_mem_cons.mpr ⟨hwf, hall (by omega)⟩

theorem Wal.accepted_of_appendAll {records : List WalRecord} {start written : Wal}
    (h : start.appendAll records = .ok written) : ∀ record ∈ records, record.Accepted := by
  induction records generalizing start with
  | nil => exact nofun
  | cons record records ih =>
    rw [Wal.appendAll] at h
    split at h
    · cases h
    · rename_i next hnext
      refine forall_mem_cons.mpr ⟨?_, ih h⟩
      rw [Wal.append_eq] at hnext
      cases hargs : record.args with
      | error e => simp [hargs] at hnext
      | ok args => exact ⟨args, hargs⟩

section

variable {payloads : List Bytes} {start written : Wal} {records : List WalRecord}
  (hholds : start.Holds payloads)
  (hread : ∀ payload ∈ payloads, Readable start.frameFormat payload)
  (hwritten : start.appendAll records = .ok written)

include hholds hread hwritten

/-- Appended records that are readable: the log recovers what their frames give back. -/
theorem Wal.Holds.recovers_appendAll
    (hreplays : ∀ record ∈ records, record.Replays start.frameFormat) :
    written.Recovers (payloads.flatMap payloadCommands ++
      (records.flatMap WalRecord.payloads).flatMap payloadCommands) := by
  have haccepted := Wal.accepted_of_appendAll hwritten
  obtain ⟨other, hother, hformat, hafter⟩ := hholds.appendAll haccepted
  obtain rfl : written = other := Except.ok.inj (hwritten.symm.trans hother)
  rw [← flatMap_append]
  refine hafter.recovers fun payload hmem => ?_
  rw [hformat]
  rcases mem_append.mp hmem with hmem | hmem
  · exact hread payload hmem
  · obtain ⟨record, hrecord, hpayload⟩ := mem_flatMap.mp hmem
    exact (replays_iff (haccepted record hrecord)).mp (hreplays record hrecord) payload hpayload

/-- **The log recovers the commands of the appended records** if the records can be read back, and
only then as far as lengths are seen. -/
theorem Wal.Holds.recovers_commands_iff :
    ((∀ record ∈ records, record.ReadsBack start.frameFormat) →
      written.Recovers (payloads.flatMap payloadCommands ++ records.flatMap commands)) ∧
    ((∀ record ∈ records, record.LengthSeen start.frameFormat) →
      written.Recovers (payloads.flatMap payloadCommands ++ records.flatMap commands) →
      ∀ record ∈ records, record.ReadsBack start.frameFormat) := by
  have haccepted := Wal.accepted_of_appendAll hwritten
  refine ⟨fun hback => ?_, fun hseen hrecovers => ?_⟩
  · have hreadable := fun record hrecord =>
      readable_of_wellFormed (haccepted record hrecord) (hback record hrecord).1
        (hback record hrecord).2
    have hcommands : (records.flatMap WalRecord.payloads).flatMap payloadCommands =
        records.flatMap commands := by
      rw [flatMap_assoc]
      exact flatMap_congr fun record hrecord => (hreadable record hrecord).2
    rw [← hcommands]
    exact hholds.recovers_appendAll hread hwritten fun record hrecord =>
      (replays_iff (haccepted record hrecord)).mpr (hreadable record hrecord).1
  · -- what was recovered was replayed, so the frames are readable, and no byte is missing
    have hreplays := hholds.replays_of_replaysAppends haccepted hread hseen
      (hrecovers.replaysAppends hwritten)
    obtain ⟨replay, hreplay, hcommands⟩ := hrecovers true legacyWalGeneration
    obtain ⟨again, hagain, hfound⟩ :=
      hholds.recovers_appendAll hread hwritten hreplays true legacyWalGeneration
    obtain rfl : replay = again := by
      rw [hreplay] at hagain
      exact Except.ok.inj (congrArg Prod.fst hagain)
    have hbytes := congrArg commandsBytes (append_cancel_left (hfound.symm.trans hcommands))
    intro record hrecord
    exact ⟨(wellFormed_of_payloadCommands haccepted hreplays).2 hbytes record hrecord,
      (hreplays record hrecord).2⟩

end

namespace Journal

/-- **A failed append leaves the log as it was**, or it poisons the journal; the file of a healthy
journal is replayed to the commands acknowledged so far, if their records can be read back and only
then; and behind a poisoned journal nothing is acknowledged. -/
theorem failed_append_safe (syncs : Bool) {file : Bytes} {create : Bool} {fresh : Generation}
    {opened start : Wal} {replay : WalReplay}
    (hopen : Wal.openIn file create fresh = .ok opened)
    (hreplay : opened.replayFrom none = (.ok replay, start)) (events more : List Event) :
    let s := reached syncs start events
    (∀ (j : Journal) record run, (j.append syncs record run).2 = false →
        (j.append syncs record run).1 = j ∨ (j.append syncs record run).1.poisoned = true) ∧
      (s.journal.poisoned = false →
        ((∀ record ∈ s.acknowledged, record.ReadsBack start.frameFormat) →
          s.journal.wal.Recovers (replay.commands ++ s.acknowledged.flatMap commands)) ∧
        ((∀ record ∈ s.acknowledged, record.LengthSeen start.frameFormat) →
          s.journal.wal.Recovers (replay.commands ++ s.acknowledged.flatMap commands) →
          ∀ record ∈ s.acknowledged, record.ReadsBack start.frameFormat)) ∧
      (s.journal.poisoned = true →
        (reached syncs start (events ++ more)).journal.poisoned = true ∧
          (reached syncs start (events ++ more)).acknowledged = s.acknowledged) := by
  intro s
  refine ⟨fun j record run hfailed => ?_, fun hhealthy => ?_, fun hpoisoned => ?_⟩
  · obtain hsame | ⟨wal, hpoisoned⟩ | ⟨-, tail, -, htaken⟩ := append_cases syncs j record run
    · exact .inl (by rw [hsame])
    · exact .inr (by rw [hpoisoned])
    · rw [htaken] at hfailed
      cases hfailed
  · have hexact : s.Exact start := Runs.keeps (I := Store.Exact start)
      (fun _ event h => exact_step h event) (fun _ => rfl) events
    obtain ⟨payloads, hholds, hread, hcommands⟩ := Wal.holds_of_replay hopen hreplay
    rw [hcommands]
    exact hholds.recovers_commands_iff hread (hexact hhealthy)
  · rw [reached, Runs.run_append]
    refine @Runs.keeps _ _ (step syncs) (fun s' => s'.journal.poisoned = true ∧
      s'.acknowledged = s.acknowledged) (fun s' event h => ?_) _ ⟨hpoisoned, rfl⟩ more
    exact (step_poisoned h.1 event).imp_right fun hsame => hsame.trans h.2

/-- All file operations succeed, but for a write that stops after some bytes. -/
def runUntil (failedAfter : Option Nat) : Wal.AppendRun :=
  ⟨true, true, true, true, failedAfter, true, true, true⟩

/-- A record is written and acknowledged, and the write of a `SET` behind it stops after three
bytes. -/
def thenTorn (record : WalRecord) : List Event :=
  [.mutate record (runUntil none) .applied,
    .mutate (.batch [[[0x53, 0x45, 0x54], [0x6b], [0x76]]]) (runUntil (some 3)) .applied]

/-- The torn write is undone. -/
theorem reached_thenTorn {start next : Wal} {record : WalRecord}
    (h : start.append record = .ok next) :
    reached true start (thenTorn record) = ⟨⟨next, false⟩, [record]⟩ := by
  have hfirst : (⟨start, false⟩ : Journal).append true record (runUntil none) =
      (⟨next, false⟩, true) := by
    rw [Wal.append_eq] at h
    cases hargs : record.args with
    | error e => simp [hargs] at h
    | ok args =>
      cases args <;>
        simpa [append, Wal.appendUnder, Wal.appendFramesUnder, runUntil, hargs] using h
  have hsecond : (⟨next, false⟩ : Journal).append true
      (.batch [[[0x53, 0x45, 0x54], [0x6b], [0x76]]]) (runUntil (some 3)) =
        (⟨next, false⟩, false) := by
    simp [append, Wal.appendUnder, WalRecord.args, Wal.appendFramesUnder, runUntil,
      Wal.rollbackUnder, Wal.rollbackTo, Wal.appendEncodedFrames]
  simp only [reached, thenTorn, Runs.run, foldl, step, hfirst, hsecond, nil_append]

theorem failed_append_safe_del :
    (reached true (Wal.newWal ⟨List.replicate 16 1, rfl⟩)
      (thenTorn (.batch [[[0x44, 0x45, 0x4c], [0x6b]]]))).journal.wal.Recovers
        [[[0x44, 0x45, 0x4c], [0x6b]]] := by
  obtain ⟨-, hhealthy, -⟩ := failed_append_safe true (Wal.openIn_empty ⟨List.replicate 16 1, rfl⟩)
    (Wal.newWal_replay _) (thenTorn (.batch [[[0x44, 0x45, 0x4c], [0x6b]]])) []
  have hreached := @reached_thenTorn (Wal.newWal ⟨List.replicate 16 1, rfl⟩) _
    (.batch [[[0x44, 0x45, 0x4c], [0x6b]]]) rfl
  refine (hhealthy (by rw [hreached])).1 ?_
  rw [hreached]
  decide

/-- **Acknowledged, and never replayed**: a batch of two values of 256 MiB, in front of an append
that failed and was undone. -/
theorem acknowledged_not_recovered :
    let value : Bytes := List.replicate (maxWalFrameBytes / 2) 0
    let s := reached true (Wal.newWal ⟨List.replicate 16 1, rfl⟩) (thenTorn (setBoth value))
    s.journal.poisoned = false ∧ s.acknowledged = [setBoth value] ∧
      ∀ commands, ¬ s.journal.wal.Recovers commands := by
  intro value s
  have hlen : value.length = maxWalFrameBytes / 2 := length_replicate
  have hmax : maxWalFrameBytes = 536870912 := by decide
  obtain ⟨⟨written, hwritten⟩, hnot⟩ := not_replaysAppends_setBoth ⟨List.replicate 16 1, rfl⟩
    (by omega : 2 * value.length = maxWalFrameBytes)
  have hnext : (Wal.newWal ⟨List.replicate 16 1, rfl⟩).append (setBoth value) = .ok written := by
    rw [Wal.appendAll] at hwritten
    split at hwritten
    · cases hwritten
    · next hnext => rw [hnext]; exact hwritten
  have hreached : s = ⟨⟨written, false⟩, [setBoth value]⟩ := reached_thenTorn hnext
  refine ⟨by rw [hreached], by rw [hreached], fun commands hrecovers => hnot ?_⟩
  rw [hreached] at hrecovers
  exact hrecovers.replaysAppends hwritten

end Journal

end Lux
