import Lux.Runs
import Lux.StreamCommands

/-!
# Identifiers of a stream increase

The last identifier of a stream bounds every identifier it ever accepted: deleting and
trimming entries leave it alone, and an accepted entry sets it to its own. An identifier at
or below it is refused, and the refusal comes before anything is changed. A sequence number
at its maximum is no exception: its successor wraps to zero, which is below the last
identifier.

The check is skipped while the last identifier is `0-0`, because that is also the mark of a
stream without history. A stream without entries then takes `0-0` itself, which no
identifier may be, and takes it again once the entry is deleted. `ids_increase_iff` says
that this is the only way: a run keeps the promise in each of its steps if and only if none
of them asks for `0-0` on such a stream.
-/

namespace Lux.Streams

open StdText KeyedList StreamId

/-! ## Runs on one key -/

/-- The subcommands of `XGROUP`. -/
inductive GroupCommand where
  | create (group id : Str) (mkstream : Bool)
  | destroy (group : Str)
  | setid (key group id : Str)
  | createconsumer (key group consumer : Str)
  | delconsumer (key group consumer : Str)
  deriving DecidableEq

/-- A command on one stream. -/
inductive StreamCommand where
  | xadd (idInput : Str) (fields : Fields) (maxlen : Option Nat) (clockMs : UInt64)
  | xdel (ids : List StreamId)
  | xtrim (maxlen : Nat)
  | xgroup (command : GroupCommand)
  deriving DecidableEq

def GroupCommand.run (slot : Option Entry) (now : Instant) : GroupCommand → Option Entry
  | .create group id mkstream => (xgroupCreate slot now group id mkstream).1
  | .destroy group => (xgroupDestroy slot now group).1
  | .setid key group id => (xgroupSetid slot now key group id).1
  | .createconsumer key group consumer => (xgroupCreateconsumer slot now key group consumer).1
  | .delconsumer key group consumer => (xgroupDelconsumer slot now key group consumer).1

/-- The slot of the stream, and every identifier accepted so far. -/
structure History where
  slot : Option Entry
  accepted : List StreamId
  deriving DecidableEq

def fresh : History := ⟨none, []⟩

/-- One command, at an instant. -/
def historyStep (h : History) (op : StreamCommand × Instant) : History :=
  match op.1 with
  | .xadd idInput fields maxlen clockMs =>
    let (slot, result) := cmdXadd h.slot op.2 clockMs idInput fields maxlen
    match result with
    | .ok id => ⟨slot, id :: h.accepted⟩
    | .error _ => ⟨slot, h.accepted⟩
  | .xdel ids => { h with slot := (xdel h.slot op.2 ids).1 }
  | .xtrim maxlen => { h with slot := (xtrim h.slot op.2 maxlen).1 }
  | .xgroup command => { h with slot := command.run h.slot op.2 }

/-- What is promised of one command: an accepted identifier is above `0-0` and above every
earlier one, and a refused entry leaves the stream as it was. -/
def Increases (h : History) (op : StreamCommand × Instant) : Prop :=
  match op.1 with
  | .xadd idInput fields maxlen clockMs =>
    match cmdXadd h.slot op.2 clockMs idInput fields maxlen with
    | (_, .ok id) => StreamId.zero < id ∧ ∀ earlier ∈ h.accepted, earlier < id
    | (slot, .error _) => slot = h.slot
  | _ => True

/-- A stream without entries whose last identifier is `0-0`, or no stream yet. -/
def Unmarked (slot : Option Entry) (now : Instant) : Prop :=
  match live slot now with
  | some (.stream stream) => stream.lastId = StreamId.zero ∧ stream.entries = []
  | some _ => False
  | none => True

/-- The command does not ask for `0-0` on an unmarked stream. -/
def AsksAbove (h : History) (op : StreamCommand × Instant) : Prop :=
  match op.1 with
  | .xadd idInput _ _ _ =>
    ¬ (StreamId.parse idInput = some StreamId.zero ∧ Unmarked h.slot op.2)
  | _ => True

/-! ## Resolving an identifier -/

variable {stream : StreamData} {clockMs : UInt64} {idInput : Str} {id : StreamId}

/-- An identifier that reads as one is requested as it is. -/
theorem requestedId_of_parse (h : parse idInput = some id) :
    requestedId stream clockMs idInput = .ok id := by
  have hstar : idInput ≠ ['*'] := by
    intro heq
    rw [heq] at h
    cases h
  unfold parse at h
  rw [requestedId, if_neg hstar]
  generalize idInput.span (· != '-') = parts at h ⊢
  obtain ⟨msText, tail⟩ := parts
  cases tail with
  | nil =>
    cases hms : parseU64 msText with
    | none => simp [hms] at h
    | some ms => simpa [hms] using h
  | cons dash seqText =>
    have hseqStar : seqText ≠ ['*'] := by
      intro heq
      have hnone : parseU64 ['*'] = none := by decide
      simp [heq, hnone] at h
    cases hms : parseU64 msText with
    | none => simp [hms] at h
    | some ms =>
      cases hseq : parseU64 seqText with
      | none => simp [hseq] at h
      | some seq => simpa [hms, hseq, hseqStar] using h

/-- Behind `0-0`, only a text that reads as `0-0` asks for it. -/
theorem parse_of_requestedId_zero (hlast : stream.lastId = zero)
    (h : requestedId stream clockMs idInput = .ok zero) :
    parse idInput = some zero := by
  have hone : (0 : UInt64) + 1 ≠ 0 := by decide
  unfold requestedId at h
  unfold parse
  split at h
  · -- `*`: the clock, or the successor of `0-0`.
    injection h with h
    split at h
    · rename_i hclock
      rw [hlast] at hclock
      have hms : clockMs = 0 := congrArg ms h
      rw [hms] at hclock
      exact absurd hclock (by decide)
    · rw [hlast] at h
      exact absurd (congrArg seq h) hone
  · generalize idInput.span (· != '-') = parts at h ⊢
    obtain ⟨msText, tail⟩ := parts
    cases tail with
    | nil =>
      cases hms : parseU64 msText with
      | none => simp [hms] at h
      | some ms => simpa [hms] using h
    | cons dash seqText =>
      cases hms : parseU64 msText with
      | none => simp [hms] at h
      | some ms =>
        simp only [hms] at h
        split at h
        · -- `ms-*`
          injection h with h
          rw [hlast] at h
          split at h
          · exact absurd (congrArg seq h) hone
          · rename_i hne
            exact absurd (congrArg StreamId.ms h) hne
        · cases hseq : parseU64 seqText with
          | none => simp [hseq] at h
          | some seq => simpa [hms, hseq] using h

/-- An identifier is accepted when it is requested and neither check refuses it; the two
spellings of the comparison with the last identifier agree. -/
theorem resolveXaddId_eq_ok :
    resolveXaddId stream clockMs idInput = .ok id ↔
      requestedId stream clockMs idInput = .ok id ∧
        ¬ (id ≤ stream.lastId ∧ stream.lastId ≠ zero) ∧
        ¬ (id = zero ∧ stream.entries ≠ []) := by
  unfold resolveXaddId
  cases hrequest : requestedId stream clockMs idInput with
  | error message => simp
  | ok requested =>
    have hsame : (requested ≤ stream.lastId ∧ stream.lastId ≠ zero ∧
        (requested.ms < stream.lastId.ms ∨
          requested.ms = stream.lastId.ms ∧ requested.seq ≤ stream.lastId.seq)) ↔
        (requested ≤ stream.lastId ∧ stream.lastId ≠ zero) := by
      rw [← le_iff]
      constructor
      · intro h
        exact ⟨h.1, h.2.1⟩
      · intro h
        exact ⟨h.1, h.2, h.1⟩
    simp only [hsame]
    constructor
    · intro h
      split at h
      · cases h
      rename_i hsmall
      split at h
      · cases h
      · rename_i hzero
        cases h
        exact ⟨rfl, hsmall, hzero⟩
    · intro h
      obtain ⟨hid, hsmall, hzero⟩ := h
      cases hid
      rw [if_neg hsmall, if_neg hzero]

/-- What an accepted identifier is: above the last one, or `0-0` on an unmarked stream. -/
theorem resolveXaddId_ok (h : resolveXaddId stream clockMs idInput = .ok id) :
    stream.lastId < id ∨
      parse idInput = some zero ∧ id = zero ∧
        stream.lastId = zero ∧ stream.entries = [] := by
  obtain ⟨hrequest, hsmall, hzero⟩ := resolveXaddId_eq_ok.mp h
  by_cases hlast : stream.lastId = zero
  · by_cases hid : id = zero
    · rw [hid] at hrequest
      have hentries : stream.entries = [] := by
        by_contra hne
        exact hzero ⟨hid, hne⟩
      exact .inr ⟨parse_of_requestedId_zero hlast hrequest, hid, hlast, hentries⟩
    · rw [hlast]
      exact .inl (lt_of_le_of_ne (zero_le id) (Ne.symm hid))
  · exact .inl (not_le.mp fun hle => hsmall ⟨hle, hlast⟩)

/-- The text of a resolved identifier resolves to it again. -/
theorem resolveXaddId_text (h : resolveXaddId stream clockMs idInput = .ok id) :
    resolveXaddId stream clockMs id.text = .ok id :=
  resolveXaddId_eq_ok.mpr
    ⟨requestedId_of_parse (parse_text id), (resolveXaddId_eq_ok.mp h).2⟩

/-! ## One step -/

/-- The last identifier of the slot bounds what was accepted; a slot without a deadline keeps
its stream for ever. -/
inductive Tracks (accepted : List StreamId) : Option Entry → Prop
  | missing (h : accepted = []) : Tracks accepted none
  | stream (stream : StreamData) (h : ∀ id ∈ accepted, id ≤ stream.lastId) :
      Tracks accepted (some ⟨.stream stream, none⟩)

variable {accepted : List StreamId} {slot : Option Entry}

/-- A command that keeps the last identifier keeps the bound. -/
theorem Tracks.withStream {α : Type} (h : Tracks accepted slot) (now : Instant)
    (missing : Except String α) {change : StreamData → StreamData × Except String α}
    (hkeep : ∀ stream, (change stream).1.lastId = stream.lastId) :
    Tracks accepted (withStream slot now missing change).1 := by
  cases h with
  | missing hnone => exact .missing hnone
  | stream stream hbound =>
    apply Tracks.stream
    intro id hid
    rw [hkeep]
    exact hbound id hid

theorem Tracks.ensureStream (h : Tracks accepted slot) (now : Instant) :
    Tracks accepted (some (ensureStream slot now)) := by
  cases h with
  | missing hnone =>
    apply Tracks.stream
    rw [hnone]
    intro id hid
    cases hid
  | stream stream hbound => exact .stream stream hbound

theorem withGroup_lastId {α : Type} (stream : StreamData) (group : Str)
    (missing : Except String α)
    (change : ConsumerGroup → ConsumerGroup × Except String α) :
    (withGroup stream group missing change).1.lastId = stream.lastId := by
  unfold withGroup
  split
  · rfl
  · rfl

section

variable (h : Tracks accepted slot)
include h

/-- Groups do not touch the identifiers of their stream. -/
theorem Tracks.group (now : Instant) (command : GroupCommand) :
    Tracks accepted (command.run slot now) := by
  cases command with
  | create group id mkstream =>
    have hkeep : ∀ stream : StreamData,
        (if (stream.groups.lookup group).isSome then (stream, Except.error busyGroup)
          else ({ stream with
            groups := put stream.groups group ⟨groupStart stream id, [], []⟩ },
            Except.ok ())).1.lastId = stream.lastId := by
      intro stream
      split
      · rfl
      · rfl
    cases mkstream with
    | true => exact (h.ensureStream now).withStream now _ hkeep
    | false => exact h.withStream now _ hkeep
  | destroy group => exact h.withStream now _ fun _ => rfl
  | setid key group id => exact h.withStream now _ fun _ => withGroup_lastId _ _ _ _
  | createconsumer key group consumer | delconsumer key group consumer =>
    exact h.withStream now _ fun _ => withGroup_lastId _ _ _ _

/-- The stream that `XADD` finds or starts under a slot. -/
def started (slot : Option Entry) : StreamData :=
  match slot with
  | some ⟨.stream stream, _⟩ => stream
  | _ => empty

/-- A refused identifier changes nothing. -/
theorem cmdXadd_error {now : Instant} {message : String}
    (hresolve : resolveXaddId (started slot) clockMs idInput = .error message) (fields : Fields)
    (maxlen : Option Nat) :
    cmdXadd slot now clockMs idInput fields maxlen = (slot, .error message) := by
  have hpreview : previewXaddId slot now clockMs idInput = .error message := by
    cases h with
    | missing _ => exact hresolve
    | stream stream _ => exact hresolve
  rw [cmdXadd, hpreview]

/-- An accepted identifier is the one that was resolved. -/
theorem cmdXadd_ok {now : Instant}
    (hresolve : resolveXaddId (started slot) clockMs idInput = .ok id) (fields : Fields)
    (maxlen : Option Nat) :
    cmdXadd slot now clockMs idInput fields maxlen =
      (some ⟨.stream (accept (started slot) id fields maxlen), none⟩, .ok id) := by
  have hpreview : previewXaddId slot now clockMs idInput = .ok id := by
    cases h with
    | missing _ => exact hresolve
    | stream stream _ => exact hresolve
  have hentry : ensureStream slot now = ⟨.stream (started slot), none⟩ := by
    cases h with
    | missing _ => rfl
    | stream stream _ => rfl
  rw [cmdXadd, hpreview]
  simp only [xaddOnShard, hentry, resolveXaddId_text hresolve]

theorem Tracks.le_lastId :
    ∀ id ∈ accepted, id ≤ (started slot).lastId := by
  cases h with
  | missing hnone =>
    rw [hnone]
    intro id hid
    cases hid
  | stream stream hbound => exact hbound

theorem Tracks.unmarked_iff (now : Instant) :
    Unmarked slot now ↔
      (started slot).lastId = zero ∧ (started slot).entries = [] := by
  cases h with
  | missing _ => exact ⟨fun _ => ⟨rfl, rfl⟩, fun _ => trivial⟩
  | stream stream _ => exact Iff.rfl

end

/-- Every step keeps the bound, also one that accepts `0-0`. -/
theorem tracks_historyStep (h : History) (op : StreamCommand × Instant)
    (htracks : Tracks h.accepted h.slot) :
    Tracks (historyStep h op).accepted (historyStep h op).slot := by
  obtain ⟨command, now⟩ := op
  cases command with
  | xadd idInput fields maxlen clockMs =>
    cases hresolve : resolveXaddId (started h.slot) clockMs idInput with
    | error message =>
      simp only [historyStep, cmdXadd_error htracks hresolve]
      exact htracks
    | ok id =>
      simp only [historyStep, cmdXadd_ok htracks hresolve]
      apply Tracks.stream
      intro earlier hearlier
      rcases List.mem_cons.mp hearlier with heq | hearlier
      · exact le_of_eq heq
      have hle := htracks.le_lastId earlier hearlier
      rcases resolveXaddId_ok hresolve with hlt | ⟨_, hid, hlast, _⟩
      · exact le_trans hle (le_of_lt hlt)
      · rw [hlast] at hle
        exact le_trans hle (le_of_eq hid.symm)
  | xdel ids | xtrim maxlen => exact htracks.withStream now _ fun _ => rfl
  | xgroup command => exact htracks.group now command

/-- One command keeps the promise exactly when it does not ask for `0-0` on an unmarked
stream. -/
theorem increases_iff_asksAbove (h : History) (op : StreamCommand × Instant)
    (htracks : Tracks h.accepted h.slot) : Increases h op ↔ AsksAbove h op := by
  obtain ⟨command, now⟩ := op
  cases command with
  | xadd idInput fields maxlen clockMs =>
    simp only [Increases, AsksAbove, htracks.unmarked_iff now]
    cases hresolve : resolveXaddId (started h.slot) clockMs idInput with
    | error message =>
      rw [cmdXadd_error htracks hresolve]
      simp only [true_iff]
      intro hzero
      obtain ⟨hparse, hlast, hentries⟩ := hzero
      have haccepted : resolveXaddId (started h.slot) clockMs idInput = .ok zero :=
        resolveXaddId_eq_ok.mpr ⟨requestedId_of_parse hparse,
          fun hsmall => hsmall.2 hlast, fun hfull => hfull.2 hentries⟩
      rw [hresolve] at haccepted
      cases haccepted
    | ok id =>
      rw [cmdXadd_ok htracks hresolve]
      constructor
      · intro hgood hzero
        have hid : requestedId (started h.slot) clockMs idInput = .ok zero :=
          requestedId_of_parse hzero.1
        rw [(resolveXaddId_eq_ok.mp hresolve).1] at hid
        rw [hid] at hgood
        exact absurd hgood.1 (lt_irrefl _)
      · intro hasks
        rcases resolveXaddId_ok hresolve with hlt | ⟨hparse, _, hlast, hentries⟩
        · refine ⟨lt_of_le_of_lt (zero_le _) hlt, ?_⟩
          intro earlier hearlier
          exact lt_of_le_of_lt (htracks.le_lastId earlier hearlier) hlt
        · exact absurd ⟨hparse, hlast, hentries⟩ hasks
  | xdel ids | xtrim maxlen | xgroup command => exact Iff.rfl

/-! ## Whole runs -/

/-- **Identifiers increase.**  From a missing key, every `XADD` of a run returns an identifier
above `0-0` and above all those accepted before, or an error that leaves the stream unchanged,
if and only if no `XADD` asks for `0-0` while the stream has no entries and the last
identifier `0-0`. -/
theorem ids_increase_iff (ops : List (StreamCommand × Instant)) :
    Runs.Safe historyStep Increases fresh ops ↔ Runs.Safe historyStep AsksAbove fresh ops :=
  Runs.safe_congr tracks_historyStep increases_iff_asksAbove (.missing rfl) ops

/-- An entry, its deletion, and the same entry again. -/
def zeroTwice : List (StreamCommand × Instant) :=
  [(.xadd (str "0-0") [(str "f", [])] none 0, 0), (.xdel [StreamId.zero], 0),
    (.xadd (str "0-0") [(str "f", [])] none 0, 0)]

/-- `0-0` is accepted, and accepted a second time after its deletion. -/
theorem zero_accepted_twice :
    (Runs.run historyStep fresh zeroTwice).accepted = [zero, zero] ∧
      ¬ Runs.Safe historyStep Increases fresh zeroTwice := by
  refine ⟨by decide, ?_⟩
  intro hsafe
  have hfirst : AsksAbove fresh (.xadd (str "0-0") [(str "f", [])] none 0, 0) :=
    (increases_iff_asksAbove fresh _ (.missing rfl)).mp hsafe.1
  exact hfirst ⟨by decide, trivial⟩

end Lux.Streams
