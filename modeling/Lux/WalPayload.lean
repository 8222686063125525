import Lux.WalFormat

/-!
# What a journal record stores

A record is one call of the append interface: a batch of commands, or a checked
command. Its frame holds one argument vector, which is the command itself for
a batch of one, and a reserved marker with an encoded batch otherwise.

`decodeRecord` compares a record with what the decoder makes of its payload,
and `decodeRecord_isOk` says which payloads decode. A record that is not well
formed is either refused or comes back with fewer bytes than were appended: a
reserved pair is mistaken for a wrapper, whose contents are strictly smaller
than itself.
-/

namespace Lux

open ByteCodec List

abbrev Command := List Bytes

/-- The bytes of `\0LUX:BATCH`. -/
def walBatchMarker : Bytes :=
  [0x00, 0x4c, 0x55, 0x58, 0x3a, 0x42, 0x41, 0x54, 0x43, 0x48]

/-- The bytes of `\0LUX:CHECKED`. -/
def walCheckedMarker : Bytes :=
  [0x00, 0x4c, 0x55, 0x58, 0x3a, 0x43, 0x48, 0x45, 0x43, 0x4b, 0x45, 0x44]

/-! ## Writing -/

/-- The payload of a frame: the argument count, then each argument. -/
def commandPayload (args : Command) : Bytes :=
  leBytes 4 args.length ++ args.flatMap writeBytes

def encodeCommandFrame (format : WalFrameFormat) (args : Command) : Bytes :=
  encodePayload format (commandPayload args)

def encodeBatchArg (arg : Bytes) : IoResult Bytes :=
  if 2 ^ 32 ≤ arg.length then
    .error ⟨.invalidInput, "WAL argument is too large"⟩
  else
    .ok (writeBytes arg)

def encodeBatchCommand (command : Command) : IoResult Bytes :=
  if 2 ^ 32 ≤ command.length then
    .error ⟨.invalidInput, "too many WAL arguments"⟩
  else
    match writeMany encodeBatchArg command with
    | .error error => .error error
    | .ok args => .ok (leBytes 4 command.length ++ args)

def encodeCommandBatch (commands : List Command) : IoResult Bytes :=
  if 2 ^ 32 ≤ commands.length then
    .error ⟨.invalidInput, "too many WAL commands"⟩
  else
    match writeMany encodeBatchCommand commands with
    | .error error => .error error
    | .ok out => .ok (leBytes 4 commands.length ++ out)

/-! ## Reading -/

/-- Rewrite an error as invalid data with a context before its text. -/
def describe {α : Type} (context : String) (result : IoResult α) : IoResult α :=
  match result with
  | .ok value => .ok value
  | .error error => .error ⟨.invalidData, context ++ ": " ++ error.message⟩

def readBatchCommand (input : Bytes) : IoResult (Command × Bytes) :=
  match readU32 input with
  | .error error => .error error
  | .ok (argc, input) =>
    if argc = 0 then
      .error ⟨.invalidData, "empty command in WAL batch"⟩
    else
      readMany readBytes argc input

def decodeCommandBatch (input : Bytes) : IoResult (List Command) :=
  match readU32 input with
  | .error error => .error error
  | .ok (commandCount, input) =>
    match readMany readBatchCommand commandCount input with
    | .error error => .error error
    | .ok (commands, input) =>
      if input.isEmpty then
        .ok commands
      else
        .error ⟨.invalidData, "trailing bytes in WAL batch"⟩

/-- The argument vector a payload holds. -/
def decodeArgs (payload : Bytes) : IoResult Command :=
  match describe "WAL frame has no argument count" (readU32 payload) with
  | .error error => .error error
  | .ok (argc, cursor) =>
    if argc = 0 then
      .error ⟨.invalidData, "WAL frame contains an empty command"⟩
    else
      match describe "WAL frame contains a malformed argument"
          (readMany readBytes argc cursor) with
      | .error error => .error error
      | .ok (args, cursor) =>
        if cursor.isEmpty then
          .ok args
        else
          .error ⟨.invalidData, "WAL frame contains trailing bytes"⟩

/-- The commands an argument vector stands for: a wrapped batch, a wrapped
checked command, or itself. -/
def expandArgs (args : Command) : IoResult (List Command × Bool) :=
  match args with
  | [marker, wrapped] =>
    if marker = walBatchMarker then
      match decodeCommandBatch wrapped with
      | .error error => .error error
      | .ok commands => .ok (commands, false)
    else if marker = walCheckedMarker then
      match decodeCommandBatch wrapped with
      | .error error => .error error
      | .ok [command] => .ok ([command], true)
      | .ok _ =>
        .error ⟨.invalidData, "checked WAL frame must contain exactly one command"⟩
    else
      .ok ([args], false)
  | _ => .ok ([args], false)

/-- The commands of a payload, and whether it is a checked command. -/
def decodeWalPayload (payload : Bytes) : IoResult (List Command × Bool) :=
  match decodeArgs payload with
  | .error error => .error error
  | .ok args => expandArgs args

/-! ## Round trips -/

/-- A command whose argument count and lengths fit their four-byte fields. -/
def FitsU32 (command : Command) : Prop :=
  command.length < 2 ^ 32 ∧ ∀ arg ∈ command, arg.length < 2 ^ 32

/-- The bytes of an encoded batch. -/
def batchBytes (commands : List Command) : Bytes :=
  leBytes 4 commands.length ++ commands.flatMap commandPayload

theorem commandPayload_length (args : Command) :
    (commandPayload args).length = 4 + (args.map fun arg => 4 + arg.length).sum := by
  simp [commandPayload, writeBytes]

theorem length_le_commandPayload (args : Command) :
    4 + 4 * args.length ≤ (commandPayload args).length := by
  rw [commandPayload_length]
  induction args with
  | nil => simp
  | cons arg args ih =>
    simp only [map_cons, sum_cons, length_cons]
    omega

section RoundTrips

variable {args command : Command} {commands : List Command}

theorem arg_length_le_commandPayload {arg : Bytes} (h : arg ∈ args) :
    4 + (4 + arg.length) ≤ (commandPayload args).length := by
  rw [commandPayload_length]
  have hle : 4 + arg.length ≤ (args.map fun arg => 4 + arg.length).sum :=
    single_le_sum (fun _ _ => Nat.zero_le _) _ (mem_map_of_mem h)
  omega

/-- What fits a frame fits the four-byte fields inside it. -/
theorem fitsU32_of_fits (hfit : (commandPayload args).length ≤ maxWalFrameBytes) :
    FitsU32 args := by
  unfold maxWalFrameBytes at hfit
  refine ⟨?_, fun arg harg => ?_⟩
  · have hlen := length_le_commandPayload args
    omega
  · have hlen := arg_length_le_commandPayload harg
    omega

theorem encodeBatchCommand_ok {out : Bytes} (h : encodeBatchCommand command = .ok out) :
    out = commandPayload command ∧ FitsU32 command := by
  unfold encodeBatchCommand at h
  split at h
  · cases h
  cases hargs : writeMany encodeBatchArg command with
  | error error => simp [hargs] at h
  | ok args =>
    have harg : ∀ arg out, encodeBatchArg arg = .ok out →
        out = writeBytes arg ∧ arg.length < 2 ^ 32 := by
      intro arg out h
      unfold encodeBatchArg at h
      split at h
      · cases h
      · injection h with h
        exact ⟨h.symm, by omega⟩
    obtain ⟨rfl, hfits⟩ := writeMany_ok harg hargs
    simp only [hargs] at h
    injection h with h
    exact ⟨h.symm, by omega, hfits⟩

/-- An accepted batch is written as `batchBytes` and every field of it fits. -/
theorem encodeCommandBatch_ok {out : Bytes} (h : encodeCommandBatch commands = .ok out) :
    out = batchBytes commands ∧ commands.length < 2 ^ 32 ∧
      ∀ command ∈ commands, FitsU32 command := by
  unfold encodeCommandBatch at h
  split at h
  · cases h
  cases hout : writeMany encodeBatchCommand commands with
  | error error => simp [hout] at h
  | ok written =>
    obtain ⟨rfl, hfits⟩ := writeMany_ok (fun _ _ => encodeBatchCommand_ok) hout
    simp only [hout] at h
    injection h with h
    exact ⟨h.symm, by omega, hfits⟩

/-- Every batch whose fields fit is accepted. -/
theorem encodeCommandBatch_eq (hcount : commands.length < 2 ^ 32)
    (hfits : ∀ command ∈ commands, FitsU32 command) :
    encodeCommandBatch commands = .ok (batchBytes commands) := by
  have hcommand : ∀ command ∈ commands,
      encodeBatchCommand command = .ok (commandPayload command) := by
    intro command hmem
    have harg : ∀ arg ∈ command, encodeBatchArg arg = .ok (writeBytes arg) := by
      intro arg harg
      exact if_neg (not_le.mpr ((hfits command hmem).2 arg harg))
    rw [encodeBatchCommand, if_neg (not_le.mpr (hfits command hmem).1), writeMany_eq harg]
    rfl
  rw [encodeCommandBatch, if_neg (not_le.mpr hcount), writeMany_eq hcommand]
  rfl

private theorem readArgs_append (hfits : FitsU32 command) (rest : Bytes) :
    readMany readBytes command.length (command.flatMap writeBytes ++ rest) = .ok (command, rest) :=
  readMany_append command (fun _ harg rest => readBytes_append (hfits.2 _ harg) rest) rest

theorem readBatchCommand_append (hfits : FitsU32 command) (hne : command ≠ []) (rest : Bytes) :
    readBatchCommand (commandPayload command ++ rest) = .ok (command, rest) := by
  have hmod : command.length % 2 ^ 32 = command.length := Nat.mod_eq_of_lt hfits.1
  have hpos : command.length ≠ 0 := by simpa using hne
  rw [commandPayload, append_assoc, readBatchCommand, readU32_append, hmod]
  simp only [hpos, if_false, readArgs_append hfits]

theorem readBatchCommand_empty (rest : Bytes) :
    readBatchCommand (commandPayload [] ++ rest) =
      .error ⟨.invalidData, "empty command in WAL batch"⟩ := by
  rw [commandPayload, append_assoc, readBatchCommand, readU32_append]
  simp

/-- An encoded batch decodes to its commands, unless one of them is empty. -/
theorem decodeCommandBatch_batchBytes (hcount : commands.length < 2 ^ 32)
    (hfits : ∀ command ∈ commands, FitsU32 command) :
    decodeCommandBatch (batchBytes commands) =
      if [] ∈ commands then
        .error ⟨.invalidData, "empty command in WAL batch"⟩
      else
        .ok commands := by
  have hmod : commands.length % 2 ^ 32 = commands.length := Nat.mod_eq_of_lt hcount
  rw [batchBytes, decodeCommandBatch, readU32_append, hmod]
  by_cases hempty : [] ∈ commands
  · obtain ⟨before, after, hsplit, hbefore⟩ := eq_append_cons_of_mem hempty
    have hread : ∀ command ∈ before, ∀ rest,
        readBatchCommand (commandPayload command ++ rest) = .ok (command, rest) := by
      intro command hmem rest
      refine readBatchCommand_append (hfits command (by simp [hsplit, hmem])) ?_ rest
      rintro rfl
      exact hbefore hmem
    have hfail := readMany_append_error before hread
      (readBatchCommand_empty (after.flatMap commandPayload)) after.length
    rw [hsplit]
    simp [hfail]
  have hread : ∀ command ∈ commands, ∀ rest,
      readBatchCommand (commandPayload command ++ rest) = .ok (command, rest) := by
    intro command hmem rest
    refine readBatchCommand_append (hfits command hmem) ?_ rest
    rintro rfl
    exact hempty hmem
  have hall := readMany_append commands hread []
  simp only [append_nil] at hall
  simp [hall, hempty]

/-- A written argument vector is read back, unless it is empty. -/
theorem decodeArgs_commandPayload (hfits : FitsU32 args) :
    decodeArgs (commandPayload args) =
      if args = [] then
        .error ⟨.invalidData, "WAL frame contains an empty command"⟩
      else
        .ok args := by
  have hmod : args.length % 2 ^ 32 = args.length := Nat.mod_eq_of_lt hfits.1
  have hread := readArgs_append hfits []
  simp only [append_nil] at hread
  rw [commandPayload, decodeArgs, readU32_append, hmod]
  by_cases hempty : args = []
  · simp [hempty, describe]
  · simp [describe, hread]

end RoundTrips

/-! ## Records -/

/-- One accepted call of the append interface. -/
inductive WalRecord where
  | batch (commands : List Command)
  | checked (args : Command)
  deriving DecidableEq, Repr

namespace WalRecord

/-- The commands that a replay of the record has to return. -/
def commands : WalRecord → List Command
  | batch commands => commands
  | checked args => [args]

def isChecked : WalRecord → Bool
  | batch _ => false
  | checked _ => true

/-- The argument vector in the record's frame; an empty batch has no frame. -/
def args : WalRecord → IoResult (Option Command)
  | batch [] => .ok none
  | batch [command] => .ok (some command)
  | batch commands =>
    match encodeCommandBatch commands with
    | .error error => .error error
    | .ok payload => .ok (some [walBatchMarker, payload])
  | checked args =>
    match encodeCommandBatch [args] with
    | .error error => .error error
    | .ok payload => .ok (some [walCheckedMarker, payload])

/-- The append interface takes the record. -/
def Accepted (record : WalRecord) : Prop := ∃ args, record.args = .ok args

/-- The payload of the record's frame, when it has one. -/
def payload (record : WalRecord) : Option Bytes :=
  match record.args with
  | .ok (some args) => some (commandPayload args)
  | _ => none

/-- The bytes an accepted record adds to the file. -/
def frame (format : WalFrameFormat) (record : WalRecord) : Bytes :=
  match record.payload with
  | some payload => encodePayload format payload
  | none => []

/-- A command that a frame cannot tell from a wrapper. -/
def Reserved (command : Command) : Prop :=
  command.length = 2 ∧
    (command.head? = some walBatchMarker ∨ command.head? = some walCheckedMarker)

instance (command : Command) : Decidable (Reserved command) :=
  inferInstanceAs (Decidable (_ ∧ _))

/-- No command of the record is empty, and a command that is stored without a
wrapper does not look like one. -/
def WellFormed : WalRecord → Prop
  | batch [command] => command ≠ [] ∧ ¬ Reserved command
  | batch commands => [] ∉ commands
  | checked args => args ≠ []

instance : DecidablePred WellFormed
  | batch [_] => inferInstanceAs (Decidable (_ ∧ _))
  | batch [] | batch (_ :: _ :: _) | checked _ => inferInstanceAs (Decidable ¬ _)

end WalRecord

open WalRecord

/-- The bytes of all arguments of some commands. -/
def commandsBytes (commands : List Command) : Nat :=
  (commands.map fun command => (command.map List.length).sum).sum

@[simp] theorem commandsBytes_append (first second : List Command) :
    commandsBytes (first ++ second) = commandsBytes first + commandsBytes second := by
  simp [commandsBytes]

variable {args : Command} {commands : List Command}

theorem readBatchCommand_ok {input rest : Bytes}
    (h : readBatchCommand input = .ok (command, rest)) :
    input = commandPayload command ++ rest ∧ FitsU32 command ∧ command ≠ [] := by
  unfold readBatchCommand at h
  cases hcount : readU32 input with
  | error error => simp [hcount] at h
  | ok pair =>
    obtain ⟨rfl, hlt⟩ := readU32_eq hcount
    simp only [hcount] at h
    split at h
    · cases h
    · rename_i hpos
      obtain ⟨hinput, hlen, hfits⟩ := readMany_ok (fun _ _ _ => readBytes_ok) h
      rw [hinput, ← hlen, ← append_assoc]
      exact ⟨rfl, ⟨by omega, hfits⟩, fun hnil => hpos (by rw [← hlen, hnil]; rfl)⟩

/-- A batch that is read was encoded as one. -/
theorem decodeCommandBatch_ok {input : Bytes} (h : decodeCommandBatch input = .ok commands) :
    input = batchBytes commands ∧ commands.length < 2 ^ 32 ∧
      ∀ command ∈ commands, FitsU32 command ∧ command ≠ [] := by
  unfold decodeCommandBatch at h
  cases hcount : readU32 input with
  | error error => simp [hcount] at h
  | ok pair =>
    obtain ⟨rfl, hlt⟩ := readU32_eq hcount
    cases hmany : readMany readBatchCommand pair.1 pair.2 with
    | error error => simp [hcount, hmany] at h
    | ok pair' =>
      obtain ⟨hinput, hlen, hall⟩ := readMany_ok (fun _ _ _ => readBatchCommand_ok) hmany
      simp only [hcount, hmany] at h
      split at h
      · rename_i hempty
        cases h
        rw [hinput, isEmpty_iff.mp hempty, append_nil, ← hlen]
        exact ⟨rfl, by omega, hall⟩
      · cases h

/-- A wrapper holds fewer argument bytes than it has bytes. -/
theorem commandsBytes_lt_batchBytes (commands : List Command) :
    commandsBytes commands < (batchBytes commands).length := by
  have hle : ∀ command : Command, (command.map length).sum ≤ (commandPayload command).length := by
    intro command
    rw [commandPayload_length]
    have := sum_le_sum (fun (arg : Bytes) _ => Nat.le_add_left arg.length 4) (l := command)
    omega
  have hsum := sum_le_sum (fun command _ => hle command) (l := commands)
  simp only [batchBytes, commandsBytes, length_append, leBytes_length, length_flatMap]
  omega

theorem decodeWalPayload_commandPayload (hfits : FitsU32 args) (hne : args ≠ []) :
    decodeWalPayload (commandPayload args) = expandArgs args := by
  simp [decodeWalPayload, decodeArgs_commandPayload hfits, hne]

theorem expandArgs_plain (h : ¬ WalRecord.Reserved args) :
    expandArgs args = .ok ([args], false) := by
  unfold expandArgs
  split
  · rename_i marker wrapped
    have hbatch : marker ≠ walBatchMarker := by
      rintro rfl
      exact h ⟨rfl, .inl rfl⟩
    have hchecked : marker ≠ walCheckedMarker := by
      rintro rfl
      exact h ⟨rfl, .inr rfl⟩
    simp [hbatch, hchecked]
  · rfl

variable {record : WalRecord} {isChecked : Bool}

/-- A reserved pair is taken for the wrapper of its second argument. -/
theorem expandArgs_wrapped (h : WalRecord.Reserved args)
    (hexpand : expandArgs args = .ok (commands, isChecked)) :
    ∃ wrapped, decodeCommandBatch wrapped = .ok commands ∧
      (args = [walBatchMarker, wrapped] ∧ isChecked = false ∨
        args = [walCheckedMarker, wrapped] ∧ isChecked = true ∧
          ∃ command, commands = [command]) := by
  obtain ⟨hlen, hmarker⟩ := h
  obtain ⟨marker, wrapped, rfl⟩ := length_eq_two.mp hlen
  simp only [head?_cons, Option.some.injEq] at hmarker
  cases hbatch : decodeCommandBatch wrapped with
  | error error =>
    rcases hmarker with rfl | rfl
    all_goals simp [expandArgs, hbatch] at hexpand
  | ok decoded =>
    have hother : walCheckedMarker ≠ walBatchMarker := by decide
    rcases hmarker with rfl | rfl
    · simp only [expandArgs, hbatch, if_true] at hexpand
      cases hexpand
      exact ⟨wrapped, hbatch, .inl ⟨rfl, rfl⟩⟩
    · simp only [expandArgs, hbatch, hother, if_true, if_false] at hexpand
      split at hexpand
      all_goals cases hexpand
      rename_i command hone
      cases hone
      exact ⟨wrapped, hbatch, .inr ⟨rfl, rfl, command, rfl⟩⟩

/-- **Mistaken wrapper.**  A reserved pair never decodes to itself: what it is
taken to wrap is smaller than the pair. -/
theorem expandArgs_reserved (h : WalRecord.Reserved args)
    (hexpand : expandArgs args = .ok (commands, isChecked)) :
    commandsBytes commands < commandsBytes [args] := by
  obtain ⟨wrapped, hdecode, hargs⟩ := expandArgs_wrapped h hexpand
  obtain ⟨rfl, -⟩ := decodeCommandBatch_ok hdecode
  have hsize := commandsBytes_lt_batchBytes commands
  obtain ⟨rfl, -⟩ | ⟨rfl, -⟩ := hargs
  all_goals
    simp only [commandsBytes, map_cons, sum_cons] at hsize ⊢
    omega

/-- The two wrapped shapes of a record, with what their encoder checked. -/
private theorem wrapped_args {marker wrapped : Bytes} (hfits : FitsU32 [marker, wrapped])
    (hencode : encodeCommandBatch commands = .ok wrapped) :
    decodeWalPayload (commandPayload [marker, wrapped]) = expandArgs [marker, wrapped] ∧
      decodeCommandBatch wrapped =
        if [] ∈ commands then
          .error ⟨.invalidData, "empty command in WAL batch"⟩
        else
          .ok commands := by
  obtain ⟨rfl, hcount, hall⟩ := encodeCommandBatch_ok hencode
  exact ⟨decodeWalPayload_commandPayload hfits (by simp), decodeCommandBatch_batchBytes hcount hall⟩

/-- The record of at least two commands is wrapped as a batch. -/
theorem WalRecord.args_batch_many (hlen : 2 ≤ commands.length) :
    (batch commands).args =
      match encodeCommandBatch commands with
      | .error error => .error error
      | .ok payload => .ok (some [walBatchMarker, payload]) := by
  match commands, hlen with
  | first :: second :: more, _ => rfl

/-- The decoder takes what the record stores: no command of it is empty, and a
command that reads like a wrapper wraps something that decodes. -/
def WalRecord.Legible : WalRecord → Prop
  | batch [command] => command ≠ [] ∧ (expandArgs command).isOk = true
  | batch commands => [] ∉ commands
  | checked args => args ≠ []

instance : DecidablePred WalRecord.Legible
  | .batch [_] => inferInstanceAs (Decidable (_ ∧ _))
  | .batch [] | .batch (_ :: _ :: _) | .checked _ => inferInstanceAs (Decidable ¬ _)

section

variable (hargs : record.args = .ok (some args))
include hargs

/-- A record whose frame fits stores a single command as it is; of a wrapped one the decoder takes
the commands, unless one of them is empty. -/
theorem decode_cases
    (hfit : (commandPayload args).length ≤ maxWalFrameBytes) : record = .batch [args] ∨
    decodeWalPayload (commandPayload args) = (if [] ∈ record.commands then
        .error ⟨.invalidData, "empty command in WAL batch"⟩
      else .ok (record.commands, record.isChecked)) ∧
      (record.WellFormed ↔ [] ∉ record.commands) ∧ (record.Legible ↔ [] ∉ record.commands) := by
  have hfits := fitsU32_of_fits hfit
  match record, hargs with
  | .batch [], hargs => simp [WalRecord.args] at hargs
  | .batch [command], hargs =>
    obtain rfl : command = args := by simpa [WalRecord.args] using hargs
    exact .inl rfl
  | .batch (first :: second :: more), hargs =>
    rw [args_batch_many (by simp)] at hargs
    cases hencode : encodeCommandBatch (first :: second :: more) with
    | error error => simp [hencode] at hargs
    | ok wrapped =>
      obtain rfl : [walBatchMarker, wrapped] = args := by simpa [hencode] using hargs
      obtain ⟨hpayload, hdecode⟩ := wrapped_args hfits hencode
      refine .inr ⟨?_, Iff.rfl, Iff.rfl⟩
      simp only [hpayload, expandArgs, hdecode, commands, isChecked]
      by_cases hempty : [] ∈ first :: second :: more <;> simp only [hempty, if_true, if_false]
  | .checked command, hargs =>
    cases hencode : encodeCommandBatch [command] with
    | error error => simp [WalRecord.args, hencode] at hargs
    | ok wrapped =>
      obtain rfl : [walCheckedMarker, wrapped] = args := by
        simpa [WalRecord.args, hencode] using hargs
      have hother : walCheckedMarker ≠ walBatchMarker := by decide
      obtain ⟨hpayload, hdecode⟩ := wrapped_args hfits hencode
      have hempty : command ≠ [] ↔ [] ∉ (checked command).commands := by
        simp [commands]
      refine .inr ⟨?_, hempty, hempty⟩
      simp only [hpayload, expandArgs, hother, if_true, hdecode, commands,
        isChecked]
      by_cases hnone : [] ∈ [command] <;> simp [hnone]

/-- What the decoder makes of a record whose frame fits: its commands when it is
well formed, and otherwise an error or strictly fewer bytes. -/
theorem decodeRecord (hfit : (commandPayload args).length ≤ maxWalFrameBytes) :
    (record.WellFormed →
      decodeWalPayload (commandPayload args) = .ok (record.commands, record.isChecked)) ∧
    (¬ record.WellFormed → ∀ commands isChecked,
      decodeWalPayload (commandPayload args) = .ok (commands, isChecked) →
        commandsBytes commands < commandsBytes record.commands) := by
  have hfits := fitsU32_of_fits hfit
  obtain rfl | ⟨hdecode, hwf, -⟩ := decode_cases hargs hfit
  · refine ⟨fun hwf => ?_, fun hbad commands isChecked hdecode => ?_⟩
    · rw [decodeWalPayload_commandPayload hfits hwf.1, expandArgs_plain hwf.2]
      rfl
    · by_cases hne : args = []
      · rw [decodeWalPayload, decodeArgs_commandPayload hfits, if_pos hne] at hdecode
        cases hdecode
      · have hreserved : WalRecord.Reserved args := by
          by_contra hplain
          exact hbad ⟨hne, hplain⟩
        rw [decodeWalPayload_commandPayload hfits hne] at hdecode
        exact expandArgs_reserved hreserved hdecode
  · rw [hdecode, hwf]
    refine ⟨fun hnone => if_neg hnone, fun hempty commands isChecked hok => ?_⟩
    rw [if_pos (not_not.mp hempty)] at hok
    cases hok

/-- **Exactly the legible records decode**, as far as their frames fit. -/
theorem decodeRecord_isOk (hfit : (commandPayload args).length ≤ maxWalFrameBytes) :
    (decodeWalPayload (commandPayload args)).isOk = true ↔ record.Legible := by
  have hfits := fitsU32_of_fits hfit
  obtain rfl | ⟨hdecode, -, hlegible⟩ := decode_cases hargs hfit
  · by_cases hne : args = []
    · subst hne
      rw [decodeWalPayload, decodeArgs_commandPayload hfits]
      simp [WalRecord.Legible, Except.toBool]
    · rw [decodeWalPayload_commandPayload hfits hne]
      simp [WalRecord.Legible, hne]
  · rw [hdecode, hlegible]
    by_cases hempty : [] ∈ record.commands <;> simp [hempty, Except.toBool]

end

/-! ## The codec as a whole -/

/-- An argument vector that is read was written as one. -/
theorem decodeArgs_ok {payload : Bytes} (h : decodeArgs payload = .ok args) :
    payload = commandPayload args ∧ FitsU32 args ∧ args ≠ [] := by
  unfold decodeArgs at h
  cases hcount : readU32 payload with
  | error error => simp [hcount, describe] at h
  | ok pair =>
    obtain ⟨rfl, hlt⟩ := readU32_eq hcount
    simp only [hcount, describe] at h
    split at h
    · cases h
    rename_i hpos
    cases hmany : readMany readBytes pair.1 pair.2 with
    | error error => simp [hmany] at h
    | ok pair' =>
      obtain ⟨hinput, hlen, hfits⟩ := readMany_ok (fun _ _ _ => readBytes_ok) hmany
      simp only [hmany] at h
      split at h
      · rename_i hempty
        cases h
        rw [hinput, isEmpty_iff.mp hempty, append_nil, ← hlen]
        exact ⟨rfl, ⟨by omega, hfits⟩, fun hnil => hpos (by rw [← hlen, hnil]; rfl)⟩
      · cases h

/-- Commands and checked flag as the journal stores them, or a batch of fewer than two commands,
which it stores without a wrapper, in one. -/
def ReEncodes (payload : Bytes) (commands : List Command) (isChecked : Bool) : Prop :=
  (∃ record : WalRecord, record.commands = commands ∧ record.isChecked = isChecked ∧
      record.payload = some payload) ∨
    isChecked = false ∧ commands.length < 2 ∧
      ∃ wrapped, encodeCommandBatch commands = .ok wrapped ∧
        payload = commandPayload [walBatchMarker, wrapped]

theorem reEncodes_of_decode {payload : Bytes}
    (h : decodeWalPayload payload = .ok (commands, isChecked)) :
    ReEncodes payload commands isChecked := by
  unfold decodeWalPayload at h
  cases hargs : decodeArgs payload with
  | error error => simp [hargs] at h
  | ok args =>
    obtain ⟨rfl, -⟩ := decodeArgs_ok hargs
    simp only [hargs] at h
    by_cases hreserved : WalRecord.Reserved args
    · obtain ⟨wrapped, hdecode, hshape⟩ := expandArgs_wrapped hreserved h
      obtain ⟨hbytes, hcount, hall⟩ := decodeCommandBatch_ok hdecode
      have hencode := encodeCommandBatch_eq hcount fun command hmem => (hall command hmem).1
      rw [← hbytes] at hencode
      obtain ⟨rfl, rfl⟩ | ⟨rfl, rfl, command, rfl⟩ := hshape
      · by_cases htwo : commands.length < 2
        · exact .inr ⟨rfl, htwo, wrapped, hencode, rfl⟩
        · refine .inl ⟨.batch commands, rfl, rfl, ?_⟩
          rw [payload, args_batch_many (not_lt.mp htwo), hencode]
      · refine .inl ⟨.checked command, rfl, rfl, ?_⟩
        simp only [payload, args, hencode]
    · rw [expandArgs_plain hreserved] at h
      cases h
      exact .inl ⟨.batch [args], rfl, rfl, rfl⟩

/-- No command is empty or starts with a reserved marker. -/
def Unreserved (commands : List Command) : Prop :=
  ∀ command ∈ commands, ∃ first rest, command = first :: rest ∧
    first ≠ walBatchMarker ∧ first ≠ walCheckedMarker

/-- **The payload codec.**  A record without reserved markers whose payload fits a frame is read
back, and what is read is encoded again as it was. -/
theorem payload_codec :
    (∀ (record : WalRecord) (payload : Bytes), Unreserved record.commands →
      record.payload = some payload → payload.length ≤ maxWalFrameBytes →
        decodeWalPayload payload = .ok (record.commands, record.isChecked)) ∧
      ∀ (payload : Bytes) (commands : List Command) (isChecked : Bool),
        decodeWalPayload payload = .ok (commands, isChecked) →
          ReEncodes payload commands isChecked := by
  refine ⟨fun record payload hplain hpayload hfit => ?_, fun _ _ _ => reEncodes_of_decode⟩
  unfold WalRecord.payload at hpayload
  split at hpayload
  · rename_i args hargs
    cases hpayload
    refine (decodeRecord hargs hfit).1 ?_
    have hnil : [] ∉ record.commands := by
      intro hmem
      obtain ⟨first, rest, h, -⟩ := hplain [] hmem
      cases h
    match record with
    | .batch [] => exact hnil
    | .batch (_ :: _ :: _) => exact hnil
    | .checked args => exact fun h => hnil (h ▸ mem_singleton_self args)
    | .batch [command] =>
      obtain ⟨first, rest, rfl, hbatch, hchecked⟩ := hplain command (mem_singleton_self _)
      exact ⟨by simp, fun h => by simpa [hbatch, hchecked] using h.2⟩
  · cases hpayload

/-- A wrapped batch of one command is read, and not written. -/
theorem single_batch_not_reEncoded :
    decodeWalPayload (commandPayload [walBatchMarker, batchBytes [[[0x41]]]]) =
        .ok ([[[0x41]]], false) ∧
      ¬ ∃ record : WalRecord, record.commands = [[[0x41]]] ∧ record.isChecked = false ∧
        record.payload = some (commandPayload [walBatchMarker, batchBytes [[[0x41]]]]) := by
  refine ⟨by rfl, ?_⟩
  rintro ⟨record, hcommands, hchecked, hpayload⟩
  cases record with
  | batch commands =>
    obtain rfl : commands = [[[0x41]]] := hcommands
    revert hpayload
    decide
  | checked args => cases hchecked

end Lux
