import Lux.StreamIds
import Lux.StreamRanges

/-!
# Cursors of groups

The runs that deliver entries to groups, and what each command does to the cursors of the
groups. Commands other than `XGROUP CREATE` and `XREADGROUP` keep every cursor (`keeps_run`); the
effects of a read leave a cursor where it was or where the last of them put it
(`applyEffects_spec`).
-/

namespace Lux.Streams

open ByteCodec StdText KeyedList List

/-! ## Runs -/

/-- One identifier that was returned for `>`. -/
structure Delivery where
  key : Bytes
  group : Str
  consumer : Str
  id : StreamId
  deriving DecidableEq

/-- The keys, and what the groups that exist have delivered, in order. -/
structure GroupState where
  data : List (Bytes × Entry)
  log : List Delivery
  deriving DecidableEq

/-- The clock readings of one command. -/
structure Clock where
  now : Instant
  reading : Instant
  appliedAt : Instant
  deriving DecidableEq

/-- A command on one key that creates no group and delivers nothing. -/
inductive SlotCommand where
  | xadd (idInput : Str) (fields : Fields) (maxlen : Option Nat) (clockMs : UInt64)
  | xdel (ids : List StreamId)
  | xtrim (maxlen : Nat)
  | destroy (group : Str)
  | createconsumer (group consumer : Str)
  | delconsumer (group consumer : Str)
  | xack (group : Str) (ids : List StreamId)
  | xclaim (group consumer : Str) (minIdleMs : Nat) (ids : List StreamId)
  | xautoclaim (group consumer : Str) (minIdleMs : Nat) (start : StreamId) (count : Option Nat)
  deriving DecidableEq

inductive GroupCommandOn where
  | slot (key : Bytes) (command : SlotCommand)
  | create (key : Bytes) (group id : Str) (mkstream : Bool)
  | xreadgroup (call : GroupRead)
  deriving DecidableEq

/-- The name of a key in an error. -/
def keyStr (key : Bytes) : Str := (fromUtf8? key).getD []

def SlotCommand.run (reveal : Bytes → Fields → Fields) (key : Bytes) (slot : Option Entry)
    (clock : Clock) : SlotCommand → Option Entry
  | .xadd idInput fields maxlen clockMs =>
    (cmdXadd slot clock.now clockMs idInput fields maxlen).1
  | .xdel ids => (Streams.xdel slot clock.now ids).1
  | .xtrim maxlen => (Streams.xtrim slot clock.now maxlen).1
  | .destroy group => (xgroupDestroy slot clock.now group).1
  | .createconsumer group consumer =>
    (xgroupCreateconsumer slot clock.now (keyStr key) group consumer).1
  | .delconsumer group consumer =>
    (xgroupDelconsumer slot clock.now (keyStr key) group consumer).1
  | .xack group ids => (Streams.xack slot clock.now group ids).1
  | .xclaim group consumer minIdleMs ids =>
    (Streams.xclaim (reveal key) slot clock.now clock.reading clock.appliedAt (keyStr key) group
      consumer minIdleMs ids).1
  | .xautoclaim group consumer minIdleMs start count =>
    (Streams.xautoclaim (reveal key) slot clock.now clock.reading clock.appliedAt (keyStr key)
      group consumer minIdleMs start count).1

/-- What a reply delivers: the entries of the streams named with `>`. -/
def deliveriesOf (call : GroupRead) (parts : List (List (Str × StreamEntries))) :
    List Delivery :=
  (call.streams.zip parts).flatMap fun p =>
    if p.1.2 = ['>'] then
      p.2.flatMap fun r => r.2.map fun e => ⟨utf8 r.1, call.group, call.consumer, e.1⟩
    else []

/-- The log without the history of one group. -/
def forget (log : List Delivery) (key : Bytes) (group : Str) : List Delivery :=
  log.filter fun d => ¬ (d.key = key ∧ d.group = group)

def groupStep (reveal : Bytes → Fields → Fields) (s : GroupState)
    (op : GroupCommandOn × Clock) : GroupState :=
  match op.1 with
  | .slot key command =>
    { s with data := setSlot s.data key (command.run reveal key (s.data.lookup key) op.2) }
  | .create key group id mkstream =>
    let (slot, result) := xgroupCreate (s.data.lookup key) op.2.now group id mkstream
    ⟨setSlot s.data key slot,
      match result with
      | .ok () => forget s.log key group
      | .error _ => s.log⟩
  | .xreadgroup call =>
    let (data, result) := Streams.xreadgroup reveal s.data op.2.now op.2.appliedAt call
    ⟨data,
      match result with
      | .ok parts => s.log ++ deliveriesOf call parts
      | .error _ => s.log⟩

def noGroups : GroupState := ⟨[], []⟩

/-- The identifiers a group has delivered, in order. -/
def idsOf (log : List Delivery) (key : Bytes) (group : Str) : List StreamId :=
  (log.filter fun d => d.key = key ∧ d.group = group).map (·.id)

/-- No entry of the stream was delivered by the group twice, and none after a later one. -/
def DeliveredOnce (log : List Delivery) (key : Bytes) (group : Str) : Prop :=
  (idsOf log key group).Pairwise (· < ·)

/-- The cursor of a group. -/
def cursor (data : List (Bytes × Entry)) (key : Bytes) (group : Str) : Option StreamId :=
  ((started (data.lookup key)).groups.lookup group).map (·.lastDeliveredId)

/-- The streams of a list that are named with `>`. -/
def namedNew (streams : List (Str × Str)) : List Str :=
  (streams.filter fun p => p.2 = ['>']).map (·.1)

/-- The stream has entries behind the cursor of the group. -/
def hasUnread (data : List (Bytes × Entry)) (group key : Str) : Bool :=
  (cursor data (utf8 key) group).any fun last =>
    entriesAfter (started (data.lookup (utf8 key))) last ≠ []

/-- A call names each stream with something unread at most once with `>`, and the successor of no
cursor it reads behind wraps over entries. -/
def ReadsApart (s : GroupState) (op : GroupCommandOn × Clock) : Prop :=
  match op.1 with
  | .xreadgroup call =>
    ((namedNew call.streams).filter (hasUnread s.data call.group)).Nodup ∧
      ∀ key ∈ namedNew call.streams, ∀ last ∈ cursor s.data (utf8 key) call.group,
        ¬ rereads (started (s.data.lookup (utf8 key))) last
  | _ => True

/-! ## What a command does to the cursors -/

/-- No stream, or one without a deadline and with its entries in order. -/
inductive Lasting : Option Entry → Prop
  | missing : Lasting none
  | stream (stream : StreamData) (h : SortedMap.Sorted stream.entries) :
      Lasting (some ⟨.stream stream, none⟩)

/-- Every group behind a change had the same cursor before it. -/
def KeepsCursors (before after : StreamData) : Prop :=
  ∀ name group, after.groups.lookup name = some group →
    (before.groups.lookup name).map (·.lastDeliveredId) = some group.lastDeliveredId

theorem KeepsCursors.of_groups_eq {before after : StreamData}
    (h : after.groups = before.groups) : KeepsCursors before after := by
  intro name group hgroup
  rw [h] at hgroup
  rw [hgroup]
  rfl

/-- What commands other than `XGROUP CREATE` and `XREADGROUP` do to a slot. -/
structure Keeps (before after : Option Entry) : Prop where
  lasting : Lasting after
  cursors : KeepsCursors (started before) (started after)

variable {slot : Option Entry}

theorem Lasting.tracks (h : Lasting slot) : Tracks [] slot := by
  cases h with
  | missing => exact .missing rfl
  | stream stream _ => exact .stream stream fun id hid => by cases hid

theorem keeps_refl (h : Lasting slot) : Keeps slot slot :=
  ⟨h, .of_groups_eq rfl⟩

variable {α : Type} {change : StreamData → StreamData × Except String α}

theorem lasting_withStream (h : Lasting slot) (now : Instant) (missing : Except String α)
    (hsorted : ∀ stream, SortedMap.Sorted stream.entries →
      SortedMap.Sorted (change stream).1.entries) :
    Lasting (withStream slot now missing change).1 := by
  cases h with
  | missing => exact .missing
  | stream stream hstream => exact .stream _ (hsorted stream hstream)

theorem keeps_withStream (h : Lasting slot) (now : Instant) (missing : Except String α)
    (hsorted : ∀ stream, SortedMap.Sorted stream.entries →
      SortedMap.Sorted (change stream).1.entries)
    (hcursors : ∀ stream, KeepsCursors stream (change stream).1) :
    Keeps slot (withStream slot now missing change).1 := by
  refine ⟨lasting_withStream h now missing hsorted, ?_⟩
  cases h with
  | missing => exact .of_groups_eq rfl
  | stream stream _ => exact hcursors stream

theorem withGroup_entries (stream : StreamData) (group : Str) (missing : Except String α)
    (change : ConsumerGroup → ConsumerGroup × Except String α) :
    (withGroup stream group missing change).1.entries = stream.entries := by
  unfold withGroup
  split
  · rfl
  · rfl

variable {change : ConsumerGroup → ConsumerGroup × Except String α} {group : Str}

/-- The cursors behind a command on one group. -/
theorem lookup_withGroup {stream : StreamData} {missing : Except String α}
    {name : Str} {after : ConsumerGroup}
    (h : (withGroup stream group missing change).1.groups.lookup name = some after) :
    (name ≠ group ∧ stream.groups.lookup name = some after) ∨
      (name = group ∧ ∃ before, stream.groups.lookup group = some before ∧
        after = (change before).1) := by
  unfold withGroup at h
  split at h
  · rename_i hnone
    refine .inl ⟨?_, h⟩
    intro hname
    rw [hname, hnone] at h
    cases h
  · rename_i before hbefore
    by_cases hname : name = group
    · subst hname
      rw [lookup_put_self] at h
      injection h with h
      exact .inr ⟨rfl, before, hbefore, h.symm⟩
    · rw [lookup_put_of_ne _ _ hname] at h
      exact .inl ⟨hname, h⟩

theorem keepsCursors_withGroup (stream : StreamData) (group : Str) (missing : Except String α)
    (hkeep : ∀ before, (change before).1.lastDeliveredId = before.lastDeliveredId) :
    KeepsCursors stream (withGroup stream group missing change).1 := by
  intro name after hafter
  rcases lookup_withGroup hafter with ⟨_, hsame⟩ | ⟨hname, before, hbefore, hchange⟩
  · rw [hsame]
    rfl
  · rw [hname, hbefore, hchange, hkeep]
    rfl

theorem keeps_onGroup (h : Lasting slot) (now : Instant) (missing missingGroup : Except String α)
    (group : Str) {change : StreamData → ConsumerGroup → ConsumerGroup × Except String α}
    (hkeep : ∀ stream before, (change stream before).1.lastDeliveredId = before.lastDeliveredId) :
    Keeps slot (withStream slot now missing fun stream =>
      withGroup stream group missingGroup (change stream)).1 := by
  apply keeps_withStream h
  · intro stream hstream
    rw [withGroup_entries]
    exact hstream
  · intro stream
    exact keepsCursors_withGroup stream group missingGroup (hkeep stream)

/-! ### Each command -/

theorem deleteOne_sublist (ids : List StreamId) :
    ∀ state : StreamEntries × Nat, (ids.foldl deleteOne state).1.Sublist state.1 := by
  induction ids with
  | nil => intro state; exact .refl _
  | cons id rest ih =>
    intro state
    refine (ih _).trans ?_
    unfold deleteOne
    split
    · exact .refl _
    · exact filter_sublist

theorem ackOne_last (ids : List StreamId) :
    ∀ state : ConsumerGroup × Nat,
      (ids.foldl ackOne state).1.lastDeliveredId = state.1.lastDeliveredId := by
  induction ids with
  | nil => intro state; rfl
  | cons id rest ih =>
    intro state
    rw [foldl_cons, ih]
    unfold ackOne
    split
    · rfl
    · rfl

theorem applyClaim_last (consumer : Str) (appliedAt : Instant)
    (claims : List (StreamId × UInt64)) :
    ∀ group : ConsumerGroup,
      (claims.foldl (applyClaim consumer appliedAt) group).lastDeliveredId =
        group.lastDeliveredId := by
  induction claims with
  | nil => intro group; rfl
  | cons claim rest ih =>
    intro group
    rw [foldl_cons, ih]
    unfold applyClaim
    split
    · rfl
    · rfl

theorem keeps_cmdXadd (h : Lasting slot) (now : Instant) (clockMs : UInt64) (idInput : Str)
    (fields : Fields) (maxlen : Option Nat) :
    Keeps slot (cmdXadd slot now clockMs idInput fields maxlen).1 := by
  cases hresolve : resolveXaddId (started slot) clockMs idInput with
  | error message =>
    rw [cmdXadd_error h.tracks hresolve]
    exact keeps_refl h
  | ok id =>
    rw [cmdXadd_ok h.tracks hresolve]
    have hbefore : SortedMap.Sorted (started slot).entries := by
      cases h with
      | missing => exact Pairwise.nil
      | stream stream hstream => exact hstream
    have hinsert := hbefore.insert id fields
    refine ⟨.stream _ ?_, .of_groups_eq rfl⟩
    cases maxlen with
    | none => exact hinsert
    | some limit => exact hinsert.of_sublist (SortedMap.trim_sublist limit _)

/-- Commands on one key keep the cursors of its groups. -/
theorem keeps_run (reveal : Bytes → Fields → Fields) (key : Bytes) (h : Lasting slot)
    (clock : Clock) (command : SlotCommand) : Keeps slot (command.run reveal key slot clock) := by
  cases command with
  | xadd idInput fields maxlen clockMs => exact keeps_cmdXadd h _ _ _ _ _
  | xdel ids =>
    apply keeps_withStream h
    · intro stream hstream
      exact hstream.of_sublist (deleteOne_sublist ids (stream.entries, 0))
    · intro stream
      exact .of_groups_eq rfl
  | xtrim maxlen =>
    apply keeps_withStream h
    · intro stream hstream
      exact hstream.of_sublist (SortedMap.trim_sublist maxlen _)
    · intro stream
      exact .of_groups_eq rfl
  | destroy group =>
    apply keeps_withStream h
    · intro stream hstream
      exact hstream
    · intro stream name after hafter
      by_cases hname : name = group
      · rw [hname, lookup_erase_self] at hafter
        cases hafter
      · rw [lookup_erase_of_ne _ hname] at hafter
        rw [hafter]
        rfl
  | createconsumer group consumer | delconsumer group consumer =>
    apply keeps_onGroup h
    intro stream before
    split
    · rfl
    · rfl
  | xack group ids =>
    apply keeps_onGroup h
    intro stream before
    exact ackOne_last ids (before, 0)
  | xclaim group consumer minIdleMs ids | xautoclaim group consumer minIdleMs start count =>
    apply keeps_onGroup h
    intro stream before
    simp only [applyLxgroupclaim]
    split
    · rfl
    · exact applyClaim_last _ _ _ _

/-! ## The keys -/

theorem lookup_setSlot_self (data : List (Bytes × Entry)) (key : Bytes) (slot : Option Entry) :
    (setSlot data key slot).lookup key = slot := by
  cases slot with
  | none => exact lookup_erase_self data key
  | some entry => exact lookup_put_self data key entry

theorem lookup_setSlot_of_ne (data : List (Bytes × Entry)) {key other : Bytes}
    (slot : Option Entry) (h : other ≠ key) :
    (setSlot data key slot).lookup other = data.lookup other := by
  cases slot with
  | none => exact lookup_erase_of_ne data h
  | some entry => exact lookup_put_of_ne data entry h

/-- Every key holds a stream without a deadline. -/
def AllLasting (data : List (Bytes × Entry)) : Prop := ∀ key, Lasting (data.lookup key)

variable {data : List (Bytes × Entry)}

theorem AllLasting.setSlot (h : AllLasting data) (key : Bytes) (hslot : Lasting slot) :
    AllLasting (setSlot data key slot) := by
  intro other
  by_cases hother : other = key
  · rw [hother, lookup_setSlot_self]
    exact hslot
  · rw [lookup_setSlot_of_ne data slot hother]
    exact h other

theorem cursor_eq_some {key : Bytes} {last : StreamId} :
    cursor data key group = some last ↔
      ∃ found, (started (data.lookup key)).groups.lookup group = some found ∧
        found.lastDeliveredId = last := by
  unfold cursor
  rw [Option.map_eq_some_iff]

/-- A command on one key that keeps its cursors keeps all cursors. -/
theorem cursor_setSlot {key : Bytes} (h : Keeps (data.lookup key) slot) {other : Bytes}
    {last : StreamId}
    (hlast : cursor (setSlot data key slot) other group = some last) :
    cursor data other group = some last := by
  by_cases hother : other = key
  · subst hother
    obtain ⟨found, hfound, hid⟩ := cursor_eq_some.mp hlast
    rw [lookup_setSlot_self] at hfound
    rw [← hid]
    exact h.cursors group found hfound
  · unfold cursor at hlast
    rw [lookup_setSlot_of_ne data slot hother] at hlast
    exact hlast

/-! ## Moving a cursor -/

theorem deliverOne_last (consumer : Str) (appliedAt : Instant) (ids : List StreamId) :
    ∀ group : ConsumerGroup,
      (ids.foldl (deliverOne consumer appliedAt) group).lastDeliveredId =
        group.lastDeliveredId := by
  induction ids with
  | nil => intro group; rfl
  | cons id rest ih =>
    intro group
    rw [foldl_cons, ih]
    rfl

/-- A delivery moves the cursor of its own group only. -/
theorem applyLxgroupread_spec (h : Lasting slot) (now appliedAt : Instant) (key group : Str)
    (consumer : Option Str) (lastDeliveredId : StreamId) (pendingIds : List StreamId) :
    let after := (applyLxgroupread slot now appliedAt key group consumer lastDeliveredId
      pendingIds).1
    Lasting after ∧ ∀ name found, (started after).groups.lookup name = some found →
      (name ≠ group ∧ (started slot).groups.lookup name = some found) ∨
        (name = group ∧ found.lastDeliveredId = lastDeliveredId) := by
  constructor
  · apply lasting_withStream h
    intro stream hstream
    rw [withGroup_entries]
    exact hstream
  · intro name found hfound
    cases h with
    | missing => cases hfound
    | stream stream _ =>
      rcases lookup_withGroup hfound with hsame | ⟨hname, before, _, hchange⟩
      · exact .inl hsame
      refine .inr ⟨hname, ?_⟩
      rw [hchange]
      cases consumer with
      | none => rfl
      | some consumer => exact deliverOne_last consumer appliedAt pendingIds _

/-- The effect delivers to the group of the call under the key. -/
def Moves (key : Bytes) (effect : ReadEffect) (last : StreamId) : Prop :=
  ∃ name consumer ids, effect = .deliver name consumer last ids ∧ utf8 name = key

theorem applyEffect_spec (h : AllLasting data) (now appliedAt : Instant) (call : GroupRead)
    (effect : ReadEffect) : let after := (applyEffect data now appliedAt call effect).1
    AllLasting after ∧ ∀ key group last, cursor after key group = some last →
      (group = call.group ∧ Moves key effect last) ∨
        (cursor data key group = some last ∧
          (group = call.group → ∀ other, ¬ Moves key effect other)) := by
  cases effect with
  | deliver name consumer lastDeliveredId pendingIds =>
    obtain ⟨hlasting, hcursors⟩ := applyLxgroupread_spec (h (utf8 name)) now appliedAt name
      call.group consumer lastDeliveredId pendingIds
    simp only [applyEffect]
    refine ⟨h.setSlot _ hlasting, ?_⟩
    intro key group last hlast
    by_cases hkey : key = utf8 name
    · subst hkey
      obtain ⟨found, hfound, hid⟩ := cursor_eq_some.mp hlast
      rw [lookup_setSlot_self] at hfound
      rcases hcursors group found hfound with ⟨hgroup, hsame⟩ | ⟨hgroup, hmoved⟩
      · exact .inr ⟨cursor_eq_some.mpr ⟨found, hsame, hid⟩, fun heq => absurd heq hgroup⟩
      · rw [hmoved] at hid
        exact .inl ⟨hgroup, name, consumer, pendingIds, by rw [hid], rfl⟩
    refine .inr ⟨?_, ?_⟩
    · unfold cursor at hlast
      rw [lookup_setSlot_of_ne data _ hkey] at hlast
      exact hlast
    · intro _ other hmoves
      obtain ⟨name', consumer', ids', heq, hname⟩ := hmoves
      injection heq with hnames
      exact hkey (by rw [hnames, hname])
  | createConsumer name =>
    have hkeeps : Keeps (data.lookup (utf8 name))
        (xgroupCreateconsumer (data.lookup (utf8 name)) now name call.group call.consumer).1 := by
      apply keeps_onGroup (h (utf8 name))
      intro stream before
      split
      · rfl
      · rfl
    refine ⟨h.setSlot _ hkeeps.lasting, ?_⟩
    intro key group last hlast
    refine .inr ⟨cursor_setSlot hkeeps hlast, ?_⟩
    intro _ other hmoves
    obtain ⟨name', consumer', ids', heq, _⟩ := hmoves
    cases heq

/-- After the effects of a call every cursor is where it was or where an effect put it, and it is
where it was only if no effect moved it, unless an effect failed. -/
theorem applyEffects_spec (now appliedAt : Instant) (call : GroupRead)
    (effects : List ReadEffect) :
    ∀ {data : List (Bytes × Entry)}, AllLasting data →
      let after := applyEffects now appliedAt call data effects
      AllLasting after.1 ∧ ∀ key group last, cursor after.1 key group = some last →
        (group = call.group ∧ ∃ effect ∈ effects, Moves key effect last) ∨
          (cursor data key group = some last ∧
            (after.2 = .ok () → group = call.group →
              ∀ effect ∈ effects, ∀ other, ¬ Moves key effect other)) := by
  induction effects with
  | nil =>
    intro data h
    refine ⟨h, ?_⟩
    intro key group last hlast
    refine .inr ⟨hlast, ?_⟩
    intro _ _ effect heffect
    cases heffect
  | cons effect rest ih =>
    intro data h
    obtain ⟨hlasting, hfirst⟩ := applyEffect_spec h now appliedAt call effect
    rcases hresult : applyEffect data now appliedAt call effect with ⟨next, result⟩
    rw [hresult] at hlasting hfirst
    cases result with
    | error message =>
      simp only [applyEffects, hresult]
      refine ⟨hlasting, ?_⟩
      intro key group last hlast
      rcases hfirst key group last hlast with ⟨hgroup, hmoves⟩ | ⟨hbefore, _⟩
      · exact .inl ⟨hgroup, effect, mem_cons_self, hmoves⟩
      · exact .inr ⟨hbefore, fun hok => by cases hok⟩
    | ok _ =>
      simp only [applyEffects, hresult]
      obtain ⟨hlasting', hrest⟩ := ih hlasting
      refine ⟨hlasting', ?_⟩
      intro key group last hlast
      rcases hrest key group last hlast with ⟨hgroup, moved, hmem, hmoves⟩ | ⟨hmid, hnone⟩
      · exact .inl ⟨hgroup, moved, mem_cons_of_mem _ hmem, hmoves⟩
      rcases hfirst key group last hmid with ⟨hgroup, hmoves⟩ | ⟨hbefore, hnot⟩
      · exact .inl ⟨hgroup, effect, mem_cons_self, hmoves⟩
      · refine .inr ⟨hbefore, ?_⟩
        intro hok hgroup
        exact forall_mem_cons.mpr ⟨hnot hgroup, hnone hok hgroup⟩

end Lux.Streams
