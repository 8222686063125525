import Lux.Runs
import Lux.WalAccepted

/-!
# Checkpoints and rotations

A snapshot takes a checkpoint of the log: its generation, the offset of its end,
and a random generation that alone may succeed it. Once the snapshot is
installed the log is rotated: a new file of the successor generation receives
the frames behind the checkpoint and replaces the old one by a rename. A crash
leaves the old file or the new one, and recovery replays either from the
snapshot's checkpoint.

The state keeps, beside the log, the records appended so far and the checkpoints
taken, each with the number of records it covers and with what became of it: the
log has not been rotated since, the last rotation used it, or another rotation
superseded it. `faithful_of_safe` is the result about all runs.
-/

namespace Lux

open ByteCodec FrameScan List WalRecord Wal

namespace Wal

/-- `checkpoint`, with the generation that was drawn for the successor. -/
def checkpoint (wal : Wal) (drawn : Generation) : WalCheckpoint :=
  ⟨wal.generation, wal.file.length, some drawn⟩

/-- A retained payload is written again as a guarded frame. -/
def retainStep (out _input payload : Bytes) : IoResult Bytes :=
  .ok (out ++ encodeGuardedPayload payload)

/-- The frames of the retained range. -/
def retainedFrames (wal : Wal) (input : Bytes) : IoResult Bytes :=
  match scan (readNextFramePayload wal.frameFormat) retainStep input [] with
  | .error error => .error error
  | .ok ⟨out, torn⟩ =>
    if torn.isEmpty then
      .ok out
    else
      .error ⟨.invalidData, "WAL ends inside a frame after the snapshot checkpoint"⟩

/-- The file that replaces the log, with the frames from `offset` on. -/
def replaceWith (wal : Wal) (generation : Generation) (offset : Nat) : IoResult Wal :=
  if generation = legacyWalGeneration ∨ generation = wal.generation then
    .error ⟨.invalidInput, "replacement WAL generation must be non-zero and new"⟩
  else
    match wal.retainedFrames (wal.file.drop offset) with
    | .error error => .error error
    | .ok frames =>
      .ok ⟨walHeaderBytes generation ++ frames, .guarded, walHeaderLen, generation⟩

/-- `rotate_after`. The rename is the switch; what the source checks behind it
changes the answer and not the log. -/
def rotateAfter (wal : Wal) (checkpoint : WalCheckpoint) : IoResult Wal :=
  if checkpoint.generation ≠ wal.generation then
    .error ⟨.invalidData, "WAL changed generation before checkpoint rotation"⟩
  else
    match checkpoint.successorGeneration with
    | none =>
      .error ⟨.invalidInput, "checkpoint has no authorized successor WAL generation"⟩
    | some generation =>
      if checkpoint.offset < wal.headerLen ∨ wal.file.length < checkpoint.offset then
        .error ⟨.invalidData, "snapshot WAL checkpoint is outside the journal"⟩
      else
        wal.replaceWith generation checkpoint.offset

end Wal

/-! ## The system -/

/-- What became of a checkpoint. -/
inductive CheckpointStatus where
  /-- The log has not been rotated since. -/
  | current
  /-- The last rotation of the log used it. -/
  | used
  /-- The log was rotated by another checkpoint. -/
  | superseded
  deriving DecidableEq, Repr

/-- A checkpoint that was taken, and how many records had been appended. -/
structure Taken where
  generation : Generation
  offset : Nat
  successor : Generation
  before : Nat
  status : CheckpointStatus
  deriving DecidableEq, Repr

def Taken.checkpoint (taken : Taken) : WalCheckpoint :=
  ⟨taken.generation, taken.offset, some taken.successor⟩

structure JournalState where
  wal : Wal
  appended : List WalRecord
  taken : List Taken
  deriving DecidableEq, Repr

/-- The operations on a journal. A rotation and a restart name the checkpoint
they use by its position among those taken. -/
inductive JournalOp where
  | append (record : WalRecord)
  | checkpoint (drawn : Generation)
  | rotate (taken : Nat)
  | restart (taken : Option Nat) (create : Bool) (fresh : Generation)
  deriving DecidableEq, Repr

namespace JournalState

/-- What a rotation with the checkpoint makes of one that was taken. -/
def markUsed (used other : Taken) : Taken :=
  { other with
    status := if other.successor = used.successor then .used else .superseded }

/-- One operation. One that fails leaves the journal as it is. -/
def step (s : JournalState) : JournalOp → JournalState
  | .append record =>
    match s.wal.append record with
    | .error _ => s
    | .ok wal => { s with wal := wal, appended := s.appended ++ [record] }
  | .checkpoint drawn =>
    -- The generator draws again on zero and on the current generation.
    if drawn = legacyWalGeneration ∨ drawn = s.wal.generation then
      s
    else
      { s with taken := ⟨s.wal.generation, (s.wal.checkpoint drawn).offset, drawn,
          s.appended.length, .current⟩ :: s.taken }
  | .rotate i =>
    match s.taken[i]? with
    | none => s
    | some taken =>
      match s.wal.rotateAfter taken.checkpoint with
      | .error _ => s
      | .ok wal => { s with wal := wal, taken := s.taken.map (markUsed taken) }
  | .restart i create fresh =>
    match Wal.openIn s.wal.file create fresh with
    | .error _ => s
    | .ok opened =>
      match opened.replayFrom ((i.bind (s.taken[·]?)).map Taken.checkpoint) with
      | (.error _, _) => s
      | (.ok _, after) => { s with wal := after }

/-- The generations in use: that of the log, and those of all checkpoints. -/
def generations (s : JournalState) : List Generation :=
  s.wal.generation :: s.taken.flatMap fun taken => [taken.generation, taken.successor]

/-- The steps that keep the promise: appended records can be read again, and
generations are not drawn twice. -/
def SafeOp (s : JournalState) : JournalOp → Prop
  | .append record => record.WellFormed ∧ ∀ payload ∈ record.payload,
      (olderBody s.wal.frameFormat payload).length ≤ maxWalFrameBytes
  | .checkpoint drawn => drawn ∉ s.generations
  | .rotate _ => True
  | .restart _ _ _ => True

instance (s : JournalState) : DecidablePred s.SafeOp
  | .append record => inferInstanceAs (Decidable (record.WellFormed ∧ _))
  | .checkpoint drawn => inferInstanceAs (Decidable (drawn ∉ s.generations))
  | .rotate _ | .restart .. => inferInstanceAs (Decidable True)

/-- Recovery from the checkpoint of a snapshot returns exactly these commands and
leaves the file alone. -/
def RecoversFrom (s : JournalState) (checkpoint : WalCheckpoint) (commands : List Command) :
    Prop :=
  ∀ create fresh, ∃ opened replay, Wal.openIn s.wal.file create fresh = .ok opened ∧
    opened.replayFrom (some checkpoint) = (.ok replay, opened) ∧ replay.commands = commands

/-- Recovery refuses the checkpoint and leaves the file alone. -/
def Refuses (s : JournalState) (checkpoint : WalCheckpoint) : Prop :=
  ∀ create fresh, ∃ opened error, Wal.openIn s.wal.file create fresh = .ok opened ∧
    opened.replayFrom (some checkpoint) = (.error error, opened)

/-- **No command is lost or repeated.**  From a checkpoint before its rotation and
after it, recovery returns the commands appended since it was taken; a checkpoint
that another rotation superseded, or that names neither the log's generation nor
it as successor, is refused. -/
structure Faithful (s : JournalState) : Prop where
  live : ∀ taken ∈ s.taken, taken.status ≠ .superseded →
    s.RecoversFrom taken.checkpoint ((s.appended.drop taken.before).flatMap WalRecord.commands)
  superseded : ∀ taken ∈ s.taken, taken.status = .superseded → s.Refuses taken.checkpoint
  unrelated : ∀ generation offset successor, generation ≠ s.wal.generation →
    successor ≠ s.wal.generation → s.Refuses ⟨generation, offset, some successor⟩

end JournalState

/-! ## What a rotation keeps -/

/-- A readable payload stays readable when the format is upgraded. -/
theorem Readable.guarded {format : WalFrameFormat} {payload : Bytes}
    (h : Readable format payload) : Readable .guarded payload :=
  ⟨le_trans (length_le_olderBody format payload) h.fits, h.decodes⟩

theorem scan_retain {format : WalFrameFormat} {payloads : List Bytes}
    (h : ∀ payload ∈ payloads, Readable format payload) (out : Bytes) :
    scan (readNextFramePayload format) retainStep (framesOf format payloads) out =
      .ok ⟨out ++ framesOf .guarded payloads, []⟩ := by
  induction payloads generalizing out with
  | nil => simp [scan_nil]
  | cons payload payloads ih =>
    have hread := readNextFramePayload_frame (h payload mem_cons_self).fits
      (framesOf format payloads)
    have hstep : retainStep out (encodePayload format payload ++ framesOf format payloads)
        payload = .ok (out ++ encodeGuardedPayload payload) := rfl
    rw [framesOf_cons, scan_frame (readNextFramePayload_consumes format) hread hstep,
      ih (fun other hother => h other (mem_cons_of_mem _ hother)),
      append_assoc]
    rfl

namespace Wal

/-- Everything a rotation can do. -/
theorem rotateAfter_ok {wal after : Wal} {checkpoint : WalCheckpoint}
    (h : wal.rotateAfter checkpoint = .ok after) :
    checkpoint.generation = wal.generation ∧
      ∃ generation frames, checkpoint.successorGeneration = some generation ∧
        generation ≠ wal.generation ∧
        wal.retainedFrames (wal.file.drop checkpoint.offset) = .ok frames ∧
        after = ⟨walHeaderBytes generation ++ frames, .guarded, walHeaderLen, generation⟩ := by
  unfold rotateAfter at h
  split at h
  · cases h
  rename_i hgeneration
  refine ⟨not_not.mp hgeneration, ?_⟩
  cases hsuccessor : checkpoint.successorGeneration with
  | none =>
    rw [hsuccessor] at h
    cases h
  | some generation =>
    rw [hsuccessor] at h
    dsimp only at h
    split at h
    · cases h
    unfold replaceWith at h
    split at h
    · cases h
    rename_i hnew
    cases hframes : wal.retainedFrames (wal.file.drop checkpoint.offset) with
    | error error =>
      rw [hframes] at h
      cases h
    | ok frames =>
      rw [hframes] at h
      injection h with h
      exact ⟨generation, frames, rfl, fun heq => hnew (.inr heq), rfl, h.symm⟩

/-- **A rotation at a boundary** keeps the payloads behind it, whatever the format
of the old file. -/
theorem Holds.rotateAfter_boundary {wal after : Wal} {payloads : List Bytes}
    (h : wal.Holds payloads)
    (hread : ∀ payload ∈ payloads, Readable wal.frameFormat payload) {k : Nat}
    {checkpoint : WalCheckpoint} (hoffset : checkpoint.offset = wal.boundary payloads k)
    (hrotate : wal.rotateAfter checkpoint = .ok after) :
    after.Holds (payloads.drop k) ∧ after.frameFormat = .guarded := by
  obtain ⟨-, generation, frames, -, -, hframes, rfl⟩ := rotateAfter_ok hrotate
  have hkept : ∀ payload ∈ payloads.drop k, Readable wal.frameFormat payload :=
    fun payload hmem => hread payload (mem_of_mem_drop hmem)
  have hscan := scan_retain hkept []
  rw [hoffset, h.drop_boundary, retainedFrames, hscan] at hframes
  cases hframes
  exact ⟨holds_guarded generation _, rfl⟩

end Wal

/-! ## The invariant -/

namespace JournalState

/-- The payloads of the records from the `k`-th on. -/
def payloadsFrom (s : JournalState) (k : Nat) : List Bytes :=
  (s.appended.drop k).flatMap WalRecord.payloads

/-- Where a checkpoint stands to a log that holds `old` and the records from
`base` on. -/
def Follows (s : JournalState) (old : List Bytes) (base : Nat) (taken : Taken) : Prop :=
  match taken.status with
  | .current => taken.generation = s.wal.generation ∧ taken.successor ≠ s.wal.generation ∧
      base ≤ taken.before ∧ taken.before ≤ s.appended.length ∧
      taken.offset = s.wal.headerLen + (framesOf s.wal.frameFormat
        (old ++ ((s.appended.take taken.before).drop base).flatMap WalRecord.payloads)).length
  | .used => taken.generation ≠ s.wal.generation ∧ taken.successor = s.wal.generation ∧
      taken.before = base ∧ old = []
  | .superseded => taken.generation ≠ s.wal.generation ∧ taken.successor ≠ s.wal.generation

/-- **The invariant.**  `old` is what the log held before the first record, until
the first rotation drops it; `base` counts the records the last rotation dropped. -/
structure Tracks (s : JournalState) (old : List Bytes) (base : Nat) : Prop where
  base_le : base ≤ s.appended.length
  holds : s.wal.Holds (old ++ s.payloadsFrom base)
  readable : ∀ payload ∈ old ++ s.payloadsFrom base, Readable s.wal.frameFormat payload
  commands : ∀ record ∈ s.appended, record.payloads.flatMap payloadCommands = record.commands
  follows : ∀ taken ∈ s.taken, s.Follows old base taken
  fresh : ∀ taken ∈ s.taken, taken.status = .current →
    ∀ other ∈ s.taken, other.generation ≠ taken.successor
  distinct : ∀ first ∈ s.taken, ∀ second ∈ s.taken,
    first.successor = second.successor → first = second

namespace Tracks

variable {s : JournalState} {old : List Bytes} {base : Nat} {taken : Taken}

/-- The payloads since `base` are those up to a later record and those behind it. -/
theorem payloadsFrom_split (s : JournalState) {base before : Nat} (hbase : base ≤ before)
    (hbefore : before ≤ s.appended.length) :
    s.payloadsFrom base =
      ((s.appended.take before).drop base).flatMap payloads ++
        s.payloadsFrom before := by
  have hlen : base ≤ (s.appended.take before).length := by
    rw [length_take]
    omega
  have hdrop : s.appended.drop base =
      (s.appended.take before).drop base ++ s.appended.drop before := by
    rw [← drop_append_of_le_length hlen, take_append_drop]
  rw [payloadsFrom, hdrop, flatMap_append, payloadsFrom]

variable (h : s.Tracks old base)
include h

/-- A current checkpoint is a boundary of the log, and behind it are the payloads
of the records appended since. -/
theorem current_boundary (hmem : taken ∈ s.taken) (hcurrent : taken.status = .current) :
    ∃ k ≤ (old ++ s.payloadsFrom base).length,
      taken.offset = s.wal.boundary (old ++ s.payloadsFrom base) k ∧
        (old ++ s.payloadsFrom base).drop k = s.payloadsFrom taken.before := by
  have hfollows := h.follows taken hmem
  simp only [Follows, hcurrent] at hfollows
  obtain ⟨-, -, hbase, hbefore, hoffset⟩ := hfollows
  rw [payloadsFrom_split s hbase hbefore, ← append_assoc]
  refine ⟨_, ?_, ?_, drop_left⟩
  · exact (prefix_append _ _).length_le
  · rw [hoffset, boundary, take_left]

theorem commandsFrom (k : Nat) : (s.payloadsFrom k).flatMap payloadCommands =
      (s.appended.drop k).flatMap WalRecord.commands := by
  rw [payloadsFrom, flatMap_assoc]
  exact flatMap_congr fun record hrecord =>
    h.commands record (mem_of_mem_drop hrecord)

/-- A checkpoint that is not superseded replays what was appended since. -/
theorem replayFrom_live (hmem : taken ∈ s.taken) (hlive : taken.status ≠ .superseded) :
    ∃ replay, s.wal.replayFrom (some taken.checkpoint) = (.ok replay, s.wal) ∧
      replay.commands = (s.appended.drop taken.before).flatMap WalRecord.commands := by
  have hfollows := h.follows taken hmem
  cases hstatus : taken.status with
  | superseded => exact absurd hstatus hlive
  | current =>
    obtain ⟨k, hk, hoffset, hdrop⟩ := h.current_boundary hmem hstatus
    simp only [Follows, hstatus] at hfollows
    have hvalid := h.holds.validateCheckpointOffset_boundary hk
      fun payload hpayload => (h.readable payload (mem_of_mem_take hpayload)).fits
    have hstart : s.wal.replayOffset (some taken.checkpoint) =
        .ok (s.wal.boundary (old ++ s.payloadsFrom base) k) := by
      simp only [replayOffset, Taken.checkpoint, hfollows.1, if_true, hoffset, hvalid]
    obtain ⟨replay, hreplay, hcommands⟩ := h.holds.replayFrom_boundary
      (fun payload hpayload => h.readable payload (mem_of_mem_drop hpayload)) hstart
    exact ⟨replay, hreplay, by rw [hcommands, hdrop, h.commandsFrom]⟩
  | used =>
    simp only [Follows, hstatus] at hfollows
    obtain ⟨hgeneration, hsuccessor, hbefore, rfl⟩ := hfollows
    have hstart : s.wal.replayOffset (some taken.checkpoint) =
        .ok (s.wal.boundary ([] ++ s.payloadsFrom base) 0) := by
      simp only [replayOffset, Taken.checkpoint, hgeneration, if_false, hsuccessor, if_true,
        boundary_zero]
    obtain ⟨replay, hreplay, hcommands⟩ := h.holds.replayFrom_boundary
      (fun payload hpayload => h.readable payload (mem_of_mem_drop hpayload)) hstart
    refine ⟨replay, hreplay, ?_⟩
    rw [hcommands, drop_zero, nil_append, h.commandsFrom, hbefore]

/-- A checkpoint of a foreign generation with a foreign successor is refused. -/
theorem replayFrom_foreign {generation successor : Generation}
    (offset : Nat) (hgeneration : generation ≠ s.wal.generation)
    (hsuccessor : successor ≠ s.wal.generation) :
    ∃ error, s.wal.replayFrom (some ⟨generation, offset, some successor⟩) =
      (.error error, s.wal) := by
  have hempty : s.wal.file.isEmpty = false := by simpa using h.holds.file_ne_nil
  refine ⟨⟨.invalidData,
    "journal generation does not match the snapshot checkpoint or its authorized successor"⟩, ?_⟩
  simp only [replayFrom, hempty, replayOffset, hgeneration, Option.some.injEq,
    hsuccessor, if_false, Option.isSome_some, if_true, Bool.false_eq_true]

theorem replayFrom_superseded (hmem : taken ∈ s.taken) (hstatus : taken.status = .superseded) :
    ∃ error, s.wal.replayFrom (some taken.checkpoint) = (.error error, s.wal) := by
  have hfollows := h.follows taken hmem
  simp only [Follows, hstatus] at hfollows
  exact h.replayFrom_foreign taken.offset hfollows.1 hfollows.2

/-- The invariant gives the promise. -/
theorem faithful : s.Faithful where
  live := by
    intro taken hmem hlive create fresh
    obtain ⟨replay, hreplay, hcommands⟩ := h.replayFrom_live hmem hlive
    exact ⟨s.wal, replay, h.holds.reopens create fresh, hreplay, hcommands⟩
  superseded := by
    intro taken hmem hstatus create fresh
    obtain ⟨error, herror⟩ := h.replayFrom_superseded hmem hstatus
    exact ⟨s.wal, error, h.holds.reopens create fresh, herror⟩
  unrelated := by
    intro generation offset successor hgeneration hsuccessor create fresh
    obtain ⟨error, herror⟩ := h.replayFrom_foreign offset hgeneration hsuccessor
    exact ⟨s.wal, error, h.holds.reopens create fresh, herror⟩

/-! ## One operation -/

theorem step_append {record : WalRecord}
    (hsafe : s.SafeOp (.append record)) : (s.step (.append record)).Tracks old base := by
  by_cases haccepted : record.Accepted
  · obtain ⟨hwf, hfits⟩ := hsafe
    obtain ⟨hreads, hcommands⟩ := readable_of_wellFormed haccepted hwf hfits
    have happend := append_accepted haccepted s.wal
    rw [frame_eq_framesOf] at happend
    have hstep : s.step (.append record) =
        ⟨s.wal.appendEncodedFrames (framesOf s.wal.frameFormat record.payloads),
          s.appended ++ [record], s.taken⟩ := by
      simp only [step, happend]
    have hmore : old ++ (s.step (.append record)).payloadsFrom base =
        (old ++ s.payloadsFrom base) ++ record.payloads := by
      rw [hstep, payloadsFrom, payloadsFrom, drop_append_of_le_length h.base_le,
        flatMap_append, flatMap_singleton, append_assoc]
    rw [hstep] at hmore ⊢
    refine ⟨?_, ?_, ?_, ?_, ?_, h.fresh, h.distinct⟩
    · rw [length_append]
      exact Nat.le_add_right_of_le h.base_le
    · rw [hmore]
      exact h.holds.append record.payloads
    · rw [hmore]
      exact forall_mem_append.mpr ⟨h.readable, hreads⟩
    · exact forall_mem_append.mpr ⟨h.commands, forall_mem_singleton.mpr hcommands⟩
    · intro taken hmem
      have hfollows := h.follows taken hmem
      cases hstatus : taken.status with
      | current =>
        -- The records in front of the checkpoint are the same ones.
        simp only [Follows, hstatus] at hfollows ⊢
        obtain ⟨hgeneration, hsuccessor, hbase, hbefore, hoffset⟩ := hfollows
        refine ⟨hgeneration, hsuccessor, hbase, ?_, ?_⟩
        · rw [length_append]
          exact Nat.le_add_right_of_le hbefore
        · rw [take_append_of_le_length hbefore]
          exact hoffset
      | used | superseded =>
        simp only [Follows, hstatus] at hfollows ⊢
        exact hfollows
  have hstep : s.step (.append record) = s := by
    have happend := append_eq s.wal record
    cases hargs : record.args with
    | ok args => exact absurd ⟨args, hargs⟩ haccepted
    | error error =>
      rw [hargs] at happend
      simp only [step, happend]
  rw [hstep]
  exact h

theorem step_checkpoint {drawn : Generation}
    (hsafe : s.SafeOp (.checkpoint drawn)) : (s.step (.checkpoint drawn)).Tracks old base := by
  by_cases hagain : drawn = legacyWalGeneration ∨ drawn = s.wal.generation
  · have hstep : s.step (.checkpoint drawn) = s := by simp only [step, hagain, if_true]
    rw [hstep]
    exact h
  have hstep : s.step (.checkpoint drawn) = { s with taken := ⟨s.wal.generation,
      s.wal.file.length, drawn, s.appended.length, .current⟩ :: s.taken } := by
    simp only [step, hagain, if_false, checkpoint]
  -- What is known of the drawn generation.
  have hunused : drawn ≠ s.wal.generation ∧
      ∀ taken ∈ s.taken, drawn ≠ taken.generation ∧ drawn ≠ taken.successor := by
    have hnot : drawn ∉ s.generations := hsafe
    simp only [generations, mem_cons, mem_flatMap, not_or, not_exists, not_and,
      not_mem_nil, not_false_eq_true, and_true] at hnot
    exact hnot
  rw [hstep]
  refine ⟨h.base_le, h.holds, h.readable, h.commands, ?_, ?_, ?_⟩
  · intro taken hmem
    rcases mem_cons.mp hmem with rfl | htail
    · simp only [Follows, true_and]
      refine ⟨hunused.1, h.base_le, le_rfl, ?_⟩
      rw [take_length]
      exact h.holds.length_eq
    · exact h.follows taken htail
  · intro taken hmem hcurrent other hother
    rcases mem_cons.mp hmem with rfl | htail
    · rcases mem_cons.mp hother with rfl | hrest
      · exact hunused.1.symm
      · exact (hunused.2 other hrest).1.symm
    · rcases mem_cons.mp hother with rfl | hrest
      · have hfollows := h.follows taken htail
        simp only [Follows, hcurrent] at hfollows
        exact hfollows.2.1.symm
      · exact h.fresh taken htail hcurrent other hrest
  · intro first hfirst second hsecond hsame
    rcases mem_cons.mp hfirst with rfl | hone
    · rcases mem_cons.mp hsecond with rfl | htwo
      · rfl
      · exact absurd hsame (hunused.2 second htwo).2
    · rcases mem_cons.mp hsecond with rfl | htwo
      · exact absurd hsame.symm (hunused.2 first hone).2
      · exact h.distinct first hone second htwo hsame

/-- Only a current checkpoint is of the log's own generation. -/
theorem current_of_generation (hmem : taken ∈ s.taken)
    (hgeneration : taken.generation = s.wal.generation) : taken.status = .current := by
  have hfollows := h.follows taken hmem
  cases hstatus : taken.status with
  | current => rfl
  | used | superseded =>
    simp only [Follows, hstatus] at hfollows
    exact absurd hgeneration hfollows.1

/-- **A rotation.**  The log drops what the checkpoint covers; the checkpoint now
names its successor, and all others name neither. -/
theorem rotated (hmem : taken ∈ s.taken) {after : Wal}
    (hrotate : s.wal.rotateAfter taken.checkpoint = .ok after) :
    JournalState.Tracks ⟨after, s.appended, s.taken.map (markUsed taken)⟩ [] taken.before := by
  obtain ⟨hgeneration, generation, frames, hsuccessor, hnew, -, hafter⟩ :=
    rotateAfter_ok hrotate
  have hcurrent := h.current_of_generation hmem hgeneration
  obtain ⟨k, -, hoffset, hdrop⟩ := h.current_boundary hmem hcurrent
  obtain ⟨hholds, hformat⟩ := h.holds.rotateAfter_boundary h.readable hoffset hrotate
  have hnamed : after.generation = taken.successor := by
    rw [hafter]
    exact (Option.some.inj hsuccessor).symm
  have hown : taken.generation = s.wal.generation := hgeneration
  have hold : taken.generation ≠ after.generation := by
    rw [hown, hafter]
    exact hnew.symm
  have hbefore : taken.before ≤ s.appended.length := by
    have hfollows := h.follows taken hmem
    simp only [Follows, hcurrent] at hfollows
    exact hfollows.2.2.2.1
  refine ⟨hbefore, ?_, ?_, h.commands, ?_, ?_, ?_⟩
  · rw [hdrop] at hholds
    exact hholds
  · intro payload hpayload
    rw [hformat]
    have hkept : payload ∈ (old ++ s.payloadsFrom base).drop k := by
      rw [hdrop]
      exact hpayload
    exact (h.readable payload (mem_of_mem_drop hkept)).guarded
  · intro marked hmarked
    obtain ⟨other, hother, rfl⟩ := mem_map.mp hmarked
    by_cases hsame : other.successor = taken.successor
    · obtain rfl := h.distinct other hother taken hmem hsame
      simp only [Follows, markUsed]
      exact ⟨hold, hnamed.symm, trivial, trivial⟩
    · have hforeign := h.fresh taken hmem hcurrent other hother
      simp only [Follows, markUsed, hsame, hnamed]
      exact ⟨hforeign, hsame⟩
  · intro marked hmarked hstill
    obtain ⟨other, -, rfl⟩ := mem_map.mp hmarked
    simp only [markUsed] at hstill
    split at hstill <;> cases hstill
  · intro first hfirst second hsecond hsame
    obtain ⟨one, hone, rfl⟩ := mem_map.mp hfirst
    obtain ⟨two, htwo, rfl⟩ := mem_map.mp hsecond
    rw [h.distinct one hone two htwo hsame]

theorem step_rotate (i : Nat) : ∃ old base, (s.step (.rotate i)).Tracks old base := by
  cases htaken : s.taken[i]? with
  | none =>
    have hstep : s.step (.rotate i) = s := by simp only [step, htaken]
    exact ⟨old, base, by rw [hstep]; exact h⟩
  | some taken =>
    cases hrotate : s.wal.rotateAfter taken.checkpoint with
    | error error =>
      have hstep : s.step (.rotate i) = s := by simp only [step, htaken, hrotate]
      exact ⟨old, base, by rw [hstep]; exact h⟩
    | ok after =>
      have hstep : s.step (.rotate i) = ⟨after, s.appended, s.taken.map (markUsed taken)⟩ := by
        simp only [step, htaken, hrotate]
      rw [hstep]
      exact ⟨[], taken.before, h.rotated (mem_of_getElem? htaken) hrotate⟩

/-- Recovery leaves the log alone, whichever checkpoint it starts from. -/
theorem replayFrom_unchanged (found : Option Taken) (hfound : ∀ taken ∈ found, taken ∈ s.taken) :
    (s.wal.replayFrom (found.map Taken.checkpoint)).2 = s.wal := by
  cases found with
  | none =>
    have hstart : s.wal.replayOffset none =
        .ok (s.wal.boundary (old ++ s.payloadsFrom base) 0) := rfl
    obtain ⟨replay, hreplay, -⟩ := h.holds.replayFrom_boundary
      (fun payload hpayload => h.readable payload (mem_of_mem_drop hpayload)) hstart
    rw [Option.map_none, hreplay]
  | some taken =>
    have hmem := hfound taken rfl
    rw [Option.map_some]
    by_cases hlive : taken.status = .superseded
    · obtain ⟨error, herror⟩ := h.replayFrom_superseded hmem hlive
      rw [herror]
    · obtain ⟨replay, hreplay, -⟩ := h.replayFrom_live hmem hlive
      rw [hreplay]

theorem step_restart (i : Option Nat) (create : Bool)
    (fresh : Generation) : s.step (.restart i create fresh) = s := by
  have hfound : ∀ taken ∈ i.bind (s.taken[·]?), taken ∈ s.taken := by
    intro taken hmem
    obtain ⟨k, -, hk⟩ := Option.bind_eq_some_iff.mp hmem
    exact mem_of_getElem? hk
  have hsame := h.replayFrom_unchanged _ hfound
  simp only [step, h.holds.reopens create fresh]
  split
  · rfl
  · rename_i after hreplay
    rw [hreplay] at hsame
    dsimp only at hsame
    rw [hsame]

/-- Every safe operation keeps the invariant. -/
theorem step_safe {op : JournalOp} (hsafe : s.SafeOp op) :
    ∃ old base, (s.step op).Tracks old base := by
  cases op with
  | append record => exact ⟨old, base, h.step_append hsafe⟩
  | checkpoint drawn => exact ⟨old, base, h.step_checkpoint hsafe⟩
  | rotate i => exact h.step_rotate i
  | restart i create fresh =>
    rw [h.step_restart]
    exact ⟨old, base, h⟩

end Tracks

/-- A journal that was just recovered, from a file of any format. -/
def start (wal : Wal) : JournalState := ⟨wal, [], []⟩

theorem tracks_start {wal : Wal} {payloads : List Bytes} (h : wal.Holds payloads)
    (hread : ∀ payload ∈ payloads, Readable wal.frameFormat payload) :
    (start wal).Tracks payloads 0 := by
  have hall : payloads ++ (start wal).payloadsFrom 0 = payloads := append_nil payloads
  refine ⟨le_rfl, ?_, ?_, forall_mem_nil _, forall_mem_nil _, forall_mem_nil _, forall_mem_nil _⟩
  · rwa [hall]
  · rwa [hall]

end JournalState

open JournalState

/-- **Checkpoints and rotations lose and repeat nothing.**  Whatever file the
journal was recovered from, after every run whose appends can be read again and
whose generations are not drawn twice, each checkpoint taken is answered with
exactly the commands appended since, or refused. -/
theorem faithful_of_safe {file : Bytes} {create : Bool} {fresh : Generation}
    {opened wal : Wal} {replay : WalReplay}
    (hopen : openIn file create fresh = .ok opened)
    (hreplay : opened.replayFrom none = (.ok replay, wal)) {ops : List JournalOp}
    (hsafe : Runs.Safe JournalState.step SafeOp (start wal) ops) :
    (Runs.run JournalState.step (start wal) ops).Faithful := by
  obtain ⟨payloads, hholds, hread, -⟩ := holds_of_replay hopen hreplay
  have hkept : ∀ (s : JournalState) op, s.SafeOp op → (∃ old base, s.Tracks old base) →
      ∃ old base, (s.step op).Tracks old base := by
    intro s op hop htracks
    obtain ⟨old, base, htracks⟩ := htracks
    exact htracks.step_safe hop
  obtain ⟨old, base, htracks⟩ :=
    Runs.invariant hkept hsafe ⟨payloads, 0, tracks_start hholds hread⟩
  exact htracks.faithful

/-- Two checkpoints of a new log; the second rotates it, more is appended, and the
journal restarts from the checkpoint that was used. -/
def twoCheckpoints : List JournalOp :=
  [.checkpoint ⟨List.replicate 16 2, rfl⟩,
    .append (.batch [[[0x47]]]),
    .checkpoint ⟨List.replicate 16 3, rfl⟩,
    .append (.batch [[[0x48]]]),
    .rotate 0,
    .append (.batch [[[0x49]]]),
    .restart (some 0) true ⟨List.replicate 16 4, rfl⟩]

theorem faithful_twoCheckpoints :
    let s := Runs.run JournalState.step (start (newWal ⟨List.replicate 16 1, rfl⟩))
      twoCheckpoints
    s.taken.map Taken.status = [.used, .superseded] ∧ s.appended.length = 3 ∧ s.Faithful := by
  refine ⟨by decide +kernel, by decide +kernel, ?_⟩
  exact faithful_of_safe (openIn_empty _) (newWal_replay _) (by decide +kernel)

/-- A payload that cannot be read behind a checkpoint makes recovery fail. -/
theorem Wal.Holds.replayFrom_unreadable {wal : Wal} {record : WalRecord} {payload : Bytes}
    (h : wal.Holds [payload]) (hpayload : record.payload = some payload)
    (hseen : record.LengthSeen wal.frameFormat)
    (hbad : ¬ Readable wal.frameFormat payload) {checkpoint : WalCheckpoint}
    (hgeneration : checkpoint.generation = wal.generation)
    (hoffset : checkpoint.offset = wal.headerLen) :
    ∃ error, wal.replayFrom (some checkpoint) = (.error error, wal) := by
  have hvalid := h.validateCheckpointOffset_boundary (Nat.zero_le _)
    fun payload hmem => absurd hmem not_mem_nil
  rw [boundary_zero] at hvalid
  obtain ⟨error, herror⟩ := scan_unreadable hpayload hseen hbad wal.file.length [] ⟨[], none⟩
  have hframes : wal.file.drop wal.headerLen = encodePayload wal.frameFormat payload ++ [] := by
    rw [h.frames, framesOf_cons, framesOf_nil]
  have hempty : wal.file.isEmpty = false := by simpa using h.file_ne_nil
  refine ⟨error, ?_⟩
  simp only [replayFrom, hempty, replayOffset, hgeneration, hvalid, hoffset, hframes,
    replayScan, herror, if_true, Bool.false_eq_true, if_false]

/-- A checkpoint of a new log, and a `SET` behind it. -/
def setBehindCheckpoint (drawn : Generation) (value : Bytes) : List JournalOp :=
  [.checkpoint drawn, .append (.batch [[[0x53, 0x45, 0x54], [0x6b], value]])]

/-- **An accepted `SET` that a recovery from the checkpoint does not return**,
because its value alone fills the largest frame. -/
theorem not_faithful_of_oversized {generation drawn : Generation} {value : Bytes}
    (hdrawn : ¬ (drawn = legacyWalGeneration ∨ drawn = generation))
    (hvalue : value.length = maxWalFrameBytes) :
    ¬ (Runs.run JournalState.step (start (newWal generation))
      (setBehindCheckpoint drawn value)).Faithful := by
  let args : Command := [[0x53, 0x45, 0x54], [0x6b], value]
  let written : Wal := ⟨walHeaderBytes generation ++ framesOf .guarded [commandPayload args],
    .guarded, walHeaderLen, generation⟩
  have hpayload : (batch [args]).payload = some (commandPayload args) := rfl
  have hlen : (commandPayload args).length = maxWalFrameBytes + 20 := by
    rw [setPayload_length, hvalue]
  have hrun : Runs.run JournalState.step (start (newWal generation))
      (setBehindCheckpoint drawn value) = ⟨written, [.batch [args]],
        [⟨generation, (newWal generation).file.length, drawn, 0, .current⟩]⟩ := by
    have happend := append_accepted (⟨_, rfl⟩ : (batch [args]).Accepted)
      (newWal generation)
    rw [frame_eq_framesOf] at happend
    have hnone : ¬ (drawn = legacyWalGeneration ∨ drawn = (newWal generation).generation) :=
      hdrawn
    rw [setBehindCheckpoint, Runs.run_cons, Runs.run_cons]
    simp only [JournalState.step, start, hnone, if_false, args, happend]
    rfl
  have hholds : written.Holds [commandPayload args] := holds_guarded generation _
  have hmax : maxWalFrameBytes = 536870912 := by decide
  have hseen : (batch [args]).LengthSeen .guarded :=
    noChecksumCollision_of_small (by simp only [hpayload, Option.mem_some, forall_eq']; omega)
  have hbad : ¬ Readable .guarded (commandPayload args) := by
    intro hread
    have hfits : (commandPayload args).length ≤ maxWalFrameBytes := hread.fits
    omega
  obtain ⟨error, herror⟩ : ∃ error, written.replayFrom
      (some ⟨generation, (newWal generation).file.length, some drawn⟩) =
        (.error error, written) :=
    hholds.replayFrom_unreadable hpayload hseen hbad rfl (walHeaderBytes_length generation)
  rw [hrun]
  intro hfaithful
  obtain ⟨opened, replay, hopen, hreplay, -⟩ :=
    hfaithful.live _ (mem_singleton_self _) (by simp) true generation
  obtain rfl : written = opened :=
    Except.ok.inj ((hholds.reopens true generation).symm.trans hopen)
  rw [Taken.checkpoint, herror] at hreplay
  cases hreplay

/-- A value of 512 MiB behind a checkpoint. -/
theorem not_faithful_512_MiB :
    ¬ (Runs.run JournalState.step (start (newWal ⟨List.replicate 16 1, rfl⟩))
      (setBehindCheckpoint ⟨List.replicate 16 2, rfl⟩
        (List.replicate maxWalFrameBytes 0))).Faithful :=
  not_faithful_of_oversized (by decide) length_replicate

end Lux
