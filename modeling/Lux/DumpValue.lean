import Lux.Readers
import Lux.KeyedList

/-!
# Values in memory and their dumped form

A value leaves memory as a `DumpValue`, the form that snapshots, `DUMP` blobs and
the cold tier all write, and comes back through `load_entry`. Identifiers of a
stream travel as text, a consumer's pending set as a sorted list of texts, and
the clock readings of consumers and pending entries do not travel at all.

`loadValue_storeValueToDumpValue` says what this costs: a valid value comes back
with every one of those clock readings set to the instant of loading, and
otherwise as it was. Maps are lists of pairs in their iteration order, floats
are their bit patterns, and a cached count or an index that is a function of the
rest of a value is left out.
-/

namespace Lux

open ByteCodec StdText KeyedList
open List hiding modify_eq_self

/-- An instant, in nanoseconds of one clock that never steps back. -/
abbrev Instant := Nat

def nanosPerMs : Nat := 1000000

/-! ## Stream identifiers -/

structure StreamId where
  ms : UInt64
  seq : UInt64
  deriving DecidableEq, Repr

namespace StreamId

def zero : StreamId := ⟨0, 0⟩

/-- `to_string`. -/
def text (id : StreamId) : Str :=
  showNat id.ms.toNat ++ '-' :: showNat id.seq.toNat

/-- `str::parse::<u64>`. -/
def parseU64 (s : Str) : Option UInt64 := (parseUsize s).map UInt64.ofNat

/-- The text in front of the first dash, and what follows it. -/
def parse (s : Str) : Option StreamId :=
  match s.span (· != '-') with
  | (ms, []) => do
      let ms ← parseU64 ms
      pure ⟨ms, 0⟩
  | (ms, _ :: seq) => do
      let ms ← parseU64 ms
      let seq ← parseU64 seq
      pure ⟨ms, seq⟩

theorem parseU64_showNat (n : UInt64) : parseU64 (showNat n.toNat) = some n := by
  simp [parseU64, parseUsize_showNat (UInt64.toNat_lt n)]

theorem span_showNat (n : Nat) (rest : Str) :
    (showNat n ++ '-' :: rest).span (· != '-') = (showNat n, '-' :: rest) := by
  have hdigits : ∀ c ∈ showNat n, (c != '-') = true := fun c hc =>
    bne_iff_ne.mpr (ne_of_mem_showNat hc (by decide))
  rw [span_eq_takeWhile_dropWhile, takeWhile_append_of_pos hdigits, dropWhile_append_of_pos hdigits]
  simp

/-- Identifiers survive their text. -/
@[simp] theorem parse_text (id : StreamId) : parse id.text = some id := by
  unfold parse text
  rw [span_showNat]
  simp [parseU64_showNat]

end StreamId

open StreamId

/-! ## Values in memory -/

structure PendingEntry where
  consumer : Str
  deliveryTime : Instant
  deliveryCount : UInt64
  deriving DecidableEq

structure Consumer where
  pel : Finset StreamId
  seenTime : Instant
  deriving DecidableEq

structure ConsumerGroup where
  lastDeliveredId : StreamId
  consumers : List (Str × Consumer)
  pel : List (StreamId × PendingEntry)
  deriving DecidableEq

structure StreamData where
  entries : List (StreamId × List (Str × Bytes))
  lastId : StreamId
  groups : List (Str × ConsumerGroup)
  deriving DecidableEq

/-- A hash with the deadlines of those fields that have one, in epoch milliseconds. -/
structure HashData where
  fields : List (Str × Bytes)
  expiries : List (Str × Int64)
  deriving DecidableEq

inductive StoreValue where
  | str (value : Bytes)
  | list (items : List Bytes)
  | hash (data : HashData)
  | set (members : List Str)
  | sortedSet (scores : List (Str × UInt64))
  | stream (data : StreamData)
  | vector (data : List UInt32) (metadata : Option Str) (encrypted : Bool)
  | hyperLogLog (registers : Bytes)
  | timeSeries (samples : List (Int64 × UInt64)) (retention : UInt64)
      (labels : List (Str × Str))
  deriving DecidableEq

def hllRegisters : Nat := 16384

/-- Registers of the one size in use, each at most `64 - 14 + 1`. -/
def ValidRegisters (registers : Bytes) : Prop :=
  registers.length = hllRegisters ∧ ∀ value ∈ registers, value ≤ 51

/-- Names occur once, and every pending entry is in the pending set of its consumer. -/
structure ConsumerGroup.Valid (group : ConsumerGroup) : Prop where
  consumers : (group.consumers.map Prod.fst).Nodup
  pel : (group.pel.map Prod.fst).Nodup
  owned : ∀ p ∈ group.pel, p.2.consumer ∈ group.consumers.map Prod.fst ∧
    ∀ c, (p.2.consumer, c) ∈ group.consumers → p.1 ∈ c.pel

/-- What every value that commands build satisfies. -/
def StoreValue.Valid : StoreValue → Prop
  | .hash data => (data.fields.map Prod.fst).Nodup ∧ (data.expiries.map Prod.fst).Nodup
  | .set members => members.Nodup
  | .sortedSet scores => (scores.map Prod.fst).Nodup
  | .stream data =>
    (data.entries.map Prod.fst).Nodup ∧ (data.groups.map Prod.fst).Nodup ∧
      ∀ p ∈ data.groups, p.2.Valid
  | .hyperLogLog registers => ValidRegisters registers
  | _ => True

/-! ## Dumped values -/

abbrev StreamDumpEntry := Str × List (Str × Bytes)
abbrev StreamConsumerDump := Str × List Str
abbrev StreamPendingDump := Str × Str × UInt64
abbrev StreamGroupDump := Str × Str × List StreamConsumerDump × List StreamPendingDump

instance streamMembersDecidableEq :
    DecidableEq (List StreamConsumerDump × List StreamPendingDump) :=
  instDecidableEqProd

inductive DumpValue where
  | str (value : Bytes)
  | list (items : List Bytes)
  | hash (pairs : List (Str × Bytes)) (expiries : List (Str × Int64))
  | set (members : List Str)
  | sortedSet (members : List (Str × UInt64))
  | stream (entries : List StreamDumpEntry) (lastId : Str) (groups : List StreamGroupDump)
  | vector (data : List UInt32) (metadata : Option Str) (encrypted : Bool)
  | hyperLogLog (registers : Bytes)
  | timeSeries (samples : List (Int64 × UInt64)) (retention : UInt64)
      (labels : List (Str × Str))
  deriving DecidableEq

structure DumpEntry where
  key : Str
  value : DumpValue
  ttlMs : Int64
  deriving DecidableEq

/-! ### Out of memory -/

/-- A consumer's pending identifiers, as sorted texts. -/
def dumpConsumer (p : Str × Consumer) : StreamConsumerDump :=
  (p.1, (p.2.pel.val.map StreamId.text).sort (· ≤ ·))

def dumpPending (p : StreamId × PendingEntry) : StreamPendingDump :=
  (p.1.text, p.2.consumer, p.2.deliveryCount)

def dumpGroup (p : Str × ConsumerGroup) : StreamGroupDump :=
  (p.1, p.2.lastDeliveredId.text, p.2.consumers.map dumpConsumer, p.2.pel.map dumpPending)

def dumpStreamEntry (p : StreamId × List (Str × Bytes)) : StreamDumpEntry :=
  (p.1.text, p.2)

def storeValueToDumpValue : StoreValue → DumpValue
  | .str value => .str value
  | .list items => .list items
  | .hash data => .hash data.fields data.expiries
  | .set members => .set members
  | .sortedSet scores => .sortedSet scores
  | .stream data =>
    .stream (data.entries.map dumpStreamEntry) data.lastId.text (data.groups.map dumpGroup)
  | .vector data metadata encrypted => .vector data metadata encrypted
  | .hyperLogLog registers => .hyperLogLog registers
  | .timeSeries samples retention labels => .timeSeries samples retention labels

/-! ### Into memory -/

def loadConsumer (now : Instant) (p : StreamConsumerDump) : Str × Consumer :=
  (p.1, ⟨(p.2.filterMap StreamId.parse).toFinset, now⟩)

/-- One pending entry of a group: its consumer is made if it is missing. -/
def loadPending (now : Instant) (state : List (Str × Consumer) × List (StreamId × PendingEntry))
    (p : StreamPendingDump) : List (Str × Consumer) × List (StreamId × PendingEntry) :=
  match StreamId.parse p.1 with
  | none => state
  | some id => (orPut state.1 p.2.1 ⟨∅, now⟩, put state.2 id ⟨p.2.1, now, p.2.2⟩)

/-- Enter a pending entry into the pending set of its consumer. -/
def recordOwner (consumers : List (Str × Consumer)) (p : StreamId × PendingEntry) :
    List (Str × Consumer) :=
  modify consumers p.2.consumer fun c => { c with pel := insert p.1 c.pel }

def loadGroup (now : Instant) (p : StreamGroupDump) : Str × ConsumerGroup :=
  let (name, lastDelivered, consumersData, pendingData) := p
  let consumers := ofPairs (consumersData.map (loadConsumer now))
  let (consumers, pel) := pendingData.foldl (loadPending now) (consumers, [])
  (name, ⟨(StreamId.parse lastDelivered).getD StreamId.zero, pel.foldl recordOwner consumers, pel⟩)

/-- An entry whose identifier cannot be read is skipped. -/
def loadStreamEntry (p : StreamDumpEntry) : Option (StreamId × List (Str × Bytes)) :=
  (StreamId.parse p.1).map fun id => (id, p.2)

/-- `SetData::from_members`: each member once, in the order of its first occurrence. -/
def setFromMembers (members : List Str) : List Str :=
  members.foldl (fun set member => if member ∈ set then set else set ++ [member]) []

/-- The value `load_entry` stores, with the instant it reads for stream groups. -/
def loadValue (now : Instant) : DumpValue → StoreValue
  | .str value => .str value
  | .list items => .list items
  | .hash pairs expiries => .hash ⟨ofPairs pairs, ofPairs expiries⟩
  | .set members => .set (setFromMembers members)
  | .sortedSet members => .sortedSet (ofPairs members)
  | .stream entries lastId groups =>
    .stream ⟨ofPairs (entries.filterMap loadStreamEntry),
      (StreamId.parse lastId).getD StreamId.zero, ofPairs (groups.map (loadGroup now))⟩
  | .vector data metadata encrypted => .vector data metadata encrypted
  | .hyperLogLog registers => .hyperLogLog registers
  | .timeSeries samples retention labels => .timeSeries samples retention labels

/-! ## There and back -/

def Consumer.touchedAt (now : Instant) (c : Consumer) : Consumer := { c with seenTime := now }

def PendingEntry.touchedAt (now : Instant) (p : PendingEntry) : PendingEntry :=
  { p with deliveryTime := now }

def ConsumerGroup.touchedAt (now : Instant) (group : ConsumerGroup) : ConsumerGroup where
  lastDeliveredId := group.lastDeliveredId
  consumers := group.consumers.map fun p => (p.1, p.2.touchedAt now)
  pel := group.pel.map fun p => (p.1, p.2.touchedAt now)

/-- The value with every clock reading of its consumers and pending entries set to `now`. -/
def StoreValue.touchedAt (now : Instant) : StoreValue → StoreValue
  | .stream data =>
    .stream { data with groups := data.groups.map fun p => (p.1, p.2.touchedAt now) }
  | value => value

theorem setFromMembers_of_nodup {members : List Str} (h : members.Nodup) :
    setFromMembers members = members := by
  suffices hacc : ∀ acc : List Str, (acc ++ members).Nodup →
      members.foldl (fun set member => if member ∈ set then set else set ++ [member]) acc =
        acc ++ members from
    hacc [] (by simpa using h)
  clear h
  induction members with
  | nil => simp
  | cons member members ih =>
    intro acc hnodup
    have hnot : member ∉ acc := by
      intro hmem
      have hdisjoint := (nodup_append.mp hnodup).2.2
      exact hdisjoint member hmem member mem_cons_self rfl
    have happend : acc ++ [member] ++ members = acc ++ member :: members := by simp
    rw [foldl_cons, if_neg hnot, ih _ (by rw [happend]; exact hnodup), happend]

variable (now : Instant)

theorem loadConsumer_dumpConsumer (p : Str × Consumer) :
    loadConsumer now (dumpConsumer p) = (p.1, p.2.touchedAt now) := by
  have hpel : (((p.2.pel.val.map text).sort (· ≤ ·)).filterMap
      parse).toFinset = p.2.pel := by
    ext id
    simp only [mem_toFinset, mem_filterMap, Multiset.mem_sort, Multiset.mem_map]
    constructor
    · rintro ⟨_, ⟨other, hother, rfl⟩, hparse⟩
      rw [parse_text] at hparse
      injection hparse with hparse
      exact hparse ▸ hother
    · intro hid
      exact ⟨id.text, ⟨id, hid, rfl⟩, parse_text id⟩
  simp [loadConsumer, dumpConsumer, Consumer.touchedAt, hpel]

/-- Pending entries whose consumers exist are appended, and no consumer is made. -/
theorem foldl_loadPending {consumers : List (Str × Consumer)} :
    ∀ {pel : List (StreamId × PendingEntry)} {acc : List (StreamId × PendingEntry)},
      ((acc ++ pel).map Prod.fst).Nodup →
      (∀ p ∈ pel, p.2.consumer ∈ consumers.map Prod.fst) →
      (pel.map dumpPending).foldl (loadPending now) (consumers, acc) =
        (consumers, acc ++ pel.map fun p => (p.1, p.2.touchedAt now)) := by
  intro pel
  induction pel with
  | nil => simp
  | cons p pel ih =>
    intro acc hnodup howned
    have hnot : p.1 ∉ acc.map Prod.fst := by
      simp only [map_append, nodup_append] at hnodup
      intro hmem
      exact hnodup.2.2 p.1 hmem p.1 mem_cons_self rfl
    have hstep : loadPending now (consumers, acc) (dumpPending p) =
        (consumers, acc ++ [(p.1, p.2.touchedAt now)]) := by
      simp [loadPending, dumpPending, orPut_of_mem _ (howned p mem_cons_self),
        put_of_not_mem _ hnot, PendingEntry.touchedAt]
    rw [map_cons, foldl_cons, hstep, ih]
    · simp
    · simpa using hnodup
    · exact fun q hq => howned q (mem_cons_of_mem p hq)

/-- Owners that are entered already stay as they are. -/
theorem foldl_recordOwner {consumers : List (Str × Consumer)} :
    ∀ {pel : List (StreamId × PendingEntry)},
      (∀ p ∈ pel, ∀ c, (p.2.consumer, c) ∈ consumers → p.1 ∈ c.pel) →
      pel.foldl recordOwner consumers = consumers := by
  intro pel
  induction pel with
  | nil => simp
  | cons p pel ih =>
    intro howned
    have hself : recordOwner consumers p = consumers := by
      apply modify_eq_self
      intro c hc
      simp [Finset.insert_eq_of_mem (howned p mem_cons_self c hc)]
    rw [foldl_cons, hself]
    exact ih fun q hq => howned q (mem_cons_of_mem p hq)

theorem loadGroup_dumpGroup {p : Str × ConsumerGroup} (h : p.2.Valid) :
    loadGroup now (dumpGroup p) = (p.1, p.2.touchedAt now) := by
  obtain ⟨name, group⟩ := p
  have hnames : (group.consumers.map fun p => (p.1, p.2.touchedAt now)).map Prod.fst =
      group.consumers.map Prod.fst := by simp
  have hconsumers : ofPairs ((group.consumers.map dumpConsumer).map (loadConsumer now)) =
      group.consumers.map fun p => (p.1, p.2.touchedAt now) := by
    have hmap : (group.consumers.map dumpConsumer).map (loadConsumer now) =
        group.consumers.map fun p => (p.1, p.2.touchedAt now) := by
      rw [map_map]
      exact map_congr_left fun p _ => loadConsumer_dumpConsumer now p
    rw [hmap]
    exact ofPairs_of_nodup (hnames ▸ h.consumers)
  have hpending : (group.pel.map dumpPending).foldl (loadPending now)
      (group.consumers.map fun p => (p.1, p.2.touchedAt now), []) =
        (group.consumers.map fun p => (p.1, p.2.touchedAt now),
          [] ++ group.pel.map fun p => (p.1, p.2.touchedAt now)) :=
    foldl_loadPending now (by simpa using h.pel)
      (fun p hp => by rw [hnames]; exact (h.owned p hp).1)
  have howners : (group.pel.map fun p => (p.1, p.2.touchedAt now)).foldl recordOwner
      (group.consumers.map fun p => (p.1, p.2.touchedAt now)) =
        group.consumers.map fun p => (p.1, p.2.touchedAt now) := by
    apply foldl_recordOwner
    intro p hp c hc
    obtain ⟨q, hq, rfl⟩ := mem_map.mp hp
    obtain ⟨r, hr, heq⟩ := mem_map.mp hc
    obtain ⟨hname, hcon⟩ := Prod.mk.injEq .. ▸ heq
    subst hcon
    exact (h.owned q hq).2 r.2 (hname ▸ hr)
  simp only [loadGroup, dumpGroup, hconsumers, hpending, nil_append, howners, parse_text]
  rfl

/-- **A dump forgets clock readings only.**  A valid value comes back as it was, with the
consumers and pending entries of its streams touched at the instant of loading. -/
theorem loadValue_storeValueToDumpValue {value : StoreValue} (h : value.Valid) :
    loadValue now (storeValueToDumpValue value) = value.touchedAt now := by
  cases value with
  | hash data =>
    simp only [storeValueToDumpValue, loadValue, ofPairs_of_nodup h.1, ofPairs_of_nodup h.2]
    rfl
  | set members =>
    simp only [storeValueToDumpValue, loadValue, setFromMembers_of_nodup h]
    rfl
  | sortedSet scores =>
    simp only [storeValueToDumpValue, loadValue, ofPairs_of_nodup h]
    rfl
  | stream data =>
    have hentries : (data.entries.map dumpStreamEntry).filterMap loadStreamEntry =
        data.entries := by
      simp [loadStreamEntry, dumpStreamEntry, Function.comp_def]
    have hgroups : (data.groups.map dumpGroup).map (loadGroup now) =
        data.groups.map fun p => (p.1, p.2.touchedAt now) := by
      rw [map_map]
      exact map_congr_left fun p hp => loadGroup_dumpGroup now (h.2.2 p hp)
    have hnames : (data.groups.map fun p => (p.1, p.2.touchedAt now)).map Prod.fst =
        data.groups.map Prod.fst := by simp
    simp only [storeValueToDumpValue, loadValue, hentries, hgroups, ofPairs_of_nodup h.1,
      ofPairs_of_nodup (hnames ▸ h.2.1), parse_text]
    rfl
  | _ => rfl

/-- No group of the value has a consumer. -/
def StoreValue.NoConsumers : StoreValue → Prop
  | .stream data => ∀ p ∈ data.groups, p.2.consumers = []
  | _ => True

end Lux
