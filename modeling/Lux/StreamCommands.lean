import Mathlib.Data.Finset.Sort
import Lux.ColdTier
import Lux.SortedMap

/-!
# Streams and their consumer groups

A stream is an ordered map from identifiers to entries together with the last identifier
it accepted and its consumer groups. A command works on the slot of one key: nothing, or an
entry that may have expired. `withStream` is the shape all of them share: a live stream is
changed in place, a live value of another type is refused, and everything else counts as a
missing key.

Identifiers are pairs of 64-bit numbers and are compared pairwise; their sums wrap, as the
release build's do. `XREADGROUP` plans its deliveries for all the streams it names before
it applies the first of them. The accounting of memory, the journal and the sealing of
field values are left out; what a read does to the fields of an entry is the parameter
`reveal`.
-/

namespace Lux

open ByteCodec StdText KeyedList

/-! ## The order of identifiers -/

namespace StreamId

/-- Position among all identifiers. -/
def rank (id : StreamId) : Nat := id.ms.toNat * 2 ^ 64 + id.seq.toNat

theorem rank_injective : Function.Injective rank := by
  intro a b h
  have ha := a.seq.toNat_lt
  have hb := b.seq.toNat_lt
  unfold rank at h
  have hms : a.ms.toNat = b.ms.toNat := by omega
  have hseq : a.seq.toNat = b.seq.toNat := by omega
  cases a
  cases b
  simp only [StreamId.mk.injEq]
  exact ⟨UInt64.toNat_inj.mp hms, UInt64.toNat_inj.mp hseq⟩

/-- The derived order: first by milliseconds, then by sequence number. -/
instance linearOrder : LinearOrder StreamId := LinearOrder.lift' rank rank_injective

theorem le_iff_rank {a b : StreamId} : a ≤ b ↔ a.rank ≤ b.rank := Iff.rfl

theorem lt_iff_rank {a b : StreamId} : a < b ↔ a.rank < b.rank := Iff.rfl

theorem le_iff {a b : StreamId} : a ≤ b ↔ a.ms < b.ms ∨ a.ms = b.ms ∧ a.seq ≤ b.seq := by
  have ha := a.seq.toNat_lt
  have hb := b.seq.toNat_lt
  rw [le_iff_rank, rank, rank, UInt64.lt_iff_toNat_lt, UInt64.le_iff_toNat_le, ← UInt64.toNat_inj]
  omega

theorem zero_le (id : StreamId) : zero ≤ id := by
  rw [le_iff_rank]
  exact Nat.zero_le _

/-- The last identifier of all. -/
def max : StreamId := ⟨0xffffffffffffffff, 0xffffffffffffffff⟩

/-- `StreamId { ms: id.ms, seq: id.seq + 1 }`, where a read behind an identifier begins. -/
def successor (id : StreamId) : StreamId := ⟨id.ms, id.seq + 1⟩

end StreamId

/-! ## Slots -/

namespace Streams

abbrev Fields := List (Str × Bytes)

abbrev StreamEntries := List (StreamId × Fields)

def wrongType : String := "WRONGTYPE Operation against a key holding the wrong kind of value"

def empty : StreamData := ⟨[], StreamId.zero, []⟩

/-- What `Some(entry) if !entry.is_expired_at(now)` matches. -/
def live (slot : Option Entry) (now : Instant) : Option StoreValue :=
  match slot with
  | some entry => if entry.isExpiredAt now then none else some entry.value
  | none => none

/-- The entry under a key, made an empty stream when the key is missing or expired. -/
def ensureStream (slot : Option Entry) (now : Instant) : Entry :=
  match slot with
  | some entry => if entry.isExpiredAt now then ⟨.stream empty, none⟩ else entry
  | none => ⟨.stream empty, none⟩

/-- A command on a live stream. -/
def withStream {α : Type} (slot : Option Entry) (now : Instant) (missing : Except String α)
    (change : StreamData → StreamData × Except String α) : Option Entry × Except String α :=
  match live slot now with
  | some (.stream stream) =>
    let (stream, result) := change stream
    (slot.map fun entry => { entry with value := .stream stream }, result)
  | some _ => (slot, .error wrongType)
  | none => (slot, missing)

/-! ## Adding -/

def invalidId : String := "ERR Invalid stream ID specified as stream command argument"

def smallId : String :=
  "ERR The ID specified in XADD is equal or smaller than the target stream top item"

/-- The identifier an argument of `XADD` asks for, at a time of the wall clock. -/
def requestedId (stream : StreamData) (clockMs : UInt64) (idInput : Str) :
    Except String StreamId :=
  if idInput = ['*'] then
    .ok (if clockMs > stream.lastId.ms then ⟨clockMs, 0⟩ else stream.lastId.successor)
  else
    match idInput.span (· != '-') with
    | (msText, []) =>
      match StreamId.parseU64 msText with
      | none => .error invalidId
      | some ms => .ok ⟨ms, 0⟩
    | (msText, _ :: seqText) =>
      match StreamId.parseU64 msText with
      | none => .error invalidId
      | some ms =>
        if seqText = ['*'] then
          .ok (if ms = stream.lastId.ms then ⟨ms, stream.lastId.seq + 1⟩ else ⟨ms, 0⟩)
        else
          match StreamId.parseU64 seqText with
          | none => .error invalidId
          | some seq => .ok ⟨ms, seq⟩

/-- `resolve_xadd_id`. -/
def resolveXaddId (stream : StreamData) (clockMs : UInt64) (idInput : Str) :
    Except String StreamId :=
  match requestedId stream clockMs idInput with
  | .error message => .error message
  | .ok id =>
    if id ≤ stream.lastId ∧ stream.lastId ≠ StreamId.zero ∧
        (id.ms < stream.lastId.ms ∨ id.ms = stream.lastId.ms ∧ id.seq ≤ stream.lastId.seq) then
      .error smallId
    else if id = StreamId.zero ∧ stream.entries ≠ [] then .error smallId
    else .ok id

/-- `preview_xadd_id`. -/
def previewXaddId (slot : Option Entry) (now : Instant) (clockMs : UInt64) (idInput : Str) :
    Except String StreamId :=
  match live slot now with
  | some (.stream stream) => resolveXaddId stream clockMs idInput
  | some _ => .error wrongType
  | none => resolveXaddId empty clockMs idInput

/-- The stream with an accepted entry, cut to `MAXLEN`. -/
def accept (stream : StreamData) (id : StreamId) (fields : Fields) (maxlen : Option Nat) :
    StreamData :=
  let entries := SortedMap.insert id fields stream.entries
  { stream with
    lastId := id
    entries := match maxlen with
      | some limit => SortedMap.trim limit entries
      | none => entries }

/-- `xadd_on_shard`. A missing key becomes a stream even when the identifier is refused. -/
def xaddOnShard (slot : Option Entry) (now : Instant) (clockMs : UInt64) (idInput : Str)
    (fields : Fields) (maxlen : Option Nat) : Option Entry × Except String StreamId :=
  let entry := ensureStream slot now
  match entry.value with
  | .stream stream =>
    match resolveXaddId stream clockMs idInput with
    | .error message => (some entry, .error message)
    | .ok id => (some { entry with value := .stream (accept stream id fields maxlen) }, .ok id)
  | _ => (some entry, .error wrongType)

/-- `cmd_xadd` behind its options: the identifier is settled first and added as text. -/
def cmdXadd (slot : Option Entry) (now : Instant) (clockMs : UInt64) (idInput : Str)
    (fields : Fields) (maxlen : Option Nat) : Option Entry × Except String StreamId :=
  match previewXaddId slot now clockMs idInput with
  | .error message => (slot, .error message)
  | .ok id => xaddOnShard slot now clockMs id.text fields maxlen

/-! ## Deleting and trimming -/

/-- One identifier of `XDEL`, with the number of entries removed so far. -/
def deleteOne (state : StreamEntries × Nat) (id : StreamId) : StreamEntries × Nat :=
  match state.1.lookup id with
  | none => state
  | some _ => (SortedMap.remove id state.1, state.2 + 1)

def xdel (slot : Option Entry) (now : Instant) (ids : List StreamId) :
    Option Entry × Except String Nat :=
  withStream slot now (.ok 0) fun stream =>
    let (kept, removed) := ids.foldl deleteOne (stream.entries, 0)
    ({ stream with entries := kept }, .ok removed)

def xtrim (slot : Option Entry) (now : Instant) (maxlen : Nat) :
    Option Entry × Except String Nat :=
  withStream slot now (.ok 0) fun stream =>
    let kept := SortedMap.trim maxlen stream.entries
    ({ stream with entries := kept }, .ok (stream.entries.length - kept.length))

/-! ## Groups -/

def nogroupErr (group key : Str) : String :=
  "NOGROUP No such consumer group '" ++ String.ofList group ++ "' for key name '" ++
    String.ofList key ++ "'"

def busyGroup : String := "BUSYGROUP Consumer Group name already exists"

def needsKey : String :=
  "ERR The XGROUP subcommand requires the key to exist. " ++
    "Note that for CREATE you may want to use the MKSTREAM option to create an empty stream " ++
    "automatically."

/-- `$` or an identifier; what is neither counts as `0-0`. -/
def groupStart (stream : StreamData) (id : Str) : StreamId :=
  if id = ['$'] then stream.lastId else (StreamId.parse id).getD StreamId.zero

def xgroupCreate (slot : Option Entry) (now : Instant) (group id : Str) (mkstream : Bool) :
    Option Entry × Except String Unit :=
  let slot := if mkstream then some (ensureStream slot now) else slot
  withStream slot now (.error needsKey) fun stream =>
    if (stream.groups.lookup group).isSome then (stream, .error busyGroup)
    else
      ({ stream with groups := put stream.groups group ⟨groupStart stream id, [], []⟩ }, .ok ())

def xgroupDestroy (slot : Option Entry) (now : Instant) (group : Str) :
    Option Entry × Except String Bool :=
  withStream slot now (.ok false) fun stream =>
    ({ stream with groups := erase stream.groups group },
      .ok (stream.groups.lookup group).isSome)

/-- A command on one group of a stream. -/
def withGroup {α : Type} (stream : StreamData) (group : Str) (missing : Except String α)
    (change : ConsumerGroup → ConsumerGroup × Except String α) :
    StreamData × Except String α :=
  match stream.groups.lookup group with
  | none => (stream, missing)
  | some consumerGroup =>
    let (consumerGroup, result) := change consumerGroup
    ({ stream with groups := put stream.groups group consumerGroup }, result)

def xgroupSetid (slot : Option Entry) (now : Instant) (key group id : Str) :
    Option Entry × Except String Unit :=
  withStream slot now (.error "ERR no such key") fun stream =>
    withGroup stream group (.error (nogroupErr group key)) fun consumerGroup =>
      if id = ['$'] then ({ consumerGroup with lastDeliveredId := stream.lastId }, .ok ())
      else
        match StreamId.parse id with
        | none => (consumerGroup, .error "ERR Invalid stream ID")
        | some id => ({ consumerGroup with lastDeliveredId := id }, .ok ())

def xgroupCreateconsumer (slot : Option Entry) (now : Instant) (key group consumer : Str) :
    Option Entry × Except String Bool :=
  withStream slot now (.error (nogroupErr group key)) fun stream =>
    withGroup stream group (.error (nogroupErr group key)) fun consumerGroup =>
      if (consumerGroup.consumers.lookup consumer).isSome then (consumerGroup, .ok false)
      else
        ({ consumerGroup with consumers := put consumerGroup.consumers consumer ⟨∅, now⟩ },
          .ok true)

def xgroupDelconsumer (slot : Option Entry) (now : Instant) (key group consumer : Str) :
    Option Entry × Except String Nat :=
  withStream slot now (.error (nogroupErr group key)) fun stream =>
    withGroup stream group (.error (nogroupErr group key)) fun consumerGroup =>
      match consumerGroup.consumers.lookup consumer with
      | none => (consumerGroup, .ok 0)
      | some c =>
        ({ consumerGroup with
            consumers := erase consumerGroup.consumers consumer
            pel := consumerGroup.pel.filter fun p => p.1 ∉ c.pel },
          .ok c.pel.card)

/-- The consumer of a pending entry no longer owns it. -/
def disown (consumers : List (Str × Consumer)) (consumer : Str) (id : StreamId) :
    List (Str × Consumer) :=
  KeyedList.modify consumers consumer fun c => { c with pel := c.pel.erase id }

/-- One identifier of `XACK`: the pending entry is dropped, also from its consumer. -/
def ackOne (state : ConsumerGroup × Nat) (id : StreamId) : ConsumerGroup × Nat :=
  match state.1.pel.lookup id with
  | none => state
  | some pending =>
    ({ state.1 with
        pel := SortedMap.remove id state.1.pel
        consumers := disown state.1.consumers pending.consumer id },
      state.2 + 1)

def xack (slot : Option Entry) (now : Instant) (group : Str) (ids : List StreamId) :
    Option Entry × Except String Nat :=
  withStream slot now (.ok 0) fun stream =>
    withGroup stream group (.ok 0) fun consumerGroup =>
      let (consumerGroup, acked) := ids.foldl ackOne (consumerGroup, 0)
      (consumerGroup, .ok acked)

/-! ### Claims -/

/-- Whole milliseconds since a delivery. -/
def idleMs (reading : Instant) (pending : PendingEntry) : Nat :=
  (reading - pending.deliveryTime) / nanosPerMs

/-- The claims of `preview_xclaim`: pending, idle long enough, counted once more. -/
def claimsOf (group : ConsumerGroup) (reading : Instant) (minIdleMs : Nat)
    (ids : List StreamId) : List (StreamId × UInt64) :=
  ids.filterMap fun id =>
    (group.pel.lookup id).bind fun pending =>
      if minIdleMs ≤ idleMs reading pending then
        some (id, if pending.deliveryCount = 0xffffffffffffffff then pending.deliveryCount
          else pending.deliveryCount + 1)
      else none

/-- One claim of `apply_lxgroupclaim`. The claims were planned under the gate that is still
held, so their identifiers are pending. -/
def applyClaim (consumer : Str) (appliedAt : Instant) (group : ConsumerGroup)
    (claim : StreamId × UInt64) : ConsumerGroup :=
  match group.pel.lookup claim.1 with
  | none => group
  | some pending =>
    { group with
      consumers := disown group.consumers pending.consumer claim.1
      pel := SortedMap.insert claim.1 ⟨consumer, appliedAt, claim.2⟩ group.pel }

/-- The consumer of a delivery or a claim, with the identifiers it now owns. -/
def own (consumers : List (Str × Consumer)) (consumer : Str) (ids : List StreamId)
    (appliedAt : Instant) : List (Str × Consumer) :=
  let pel := (consumers.lookup consumer).elim ∅ (·.pel)
  put consumers consumer ⟨ids.foldl (fun pel id => insert id pel) pel, appliedAt⟩

def applyLxgroupclaim (group : ConsumerGroup) (consumer : Str)
    (claims : List (StreamId × UInt64)) (appliedAt : Instant) : ConsumerGroup :=
  if claims = [] then group
  else
    let group := claims.foldl (applyClaim consumer appliedAt) group
    { group with consumers := own group.consumers consumer (claims.map Prod.fst) appliedAt }

/-- The entries of claimed identifiers that still exist. -/
def claimed (reveal : Fields → Fields) (stream : StreamData) (ids : List StreamId) :
    StreamEntries :=
  ids.filterMap fun id => (stream.entries.lookup id).map fun fields => (id, reveal fields)

def xclaim (reveal : Fields → Fields) (slot : Option Entry) (now reading appliedAt : Instant)
    (key group consumer : Str) (minIdleMs : Nat) (ids : List StreamId) :
    Option Entry × Except String StreamEntries :=
  withStream slot now (.ok []) fun stream =>
    withGroup stream group (.error (nogroupErr group key)) fun consumerGroup =>
      let claims := claimsOf consumerGroup reading minIdleMs ids
      (applyLxgroupclaim consumerGroup consumer claims appliedAt,
        .ok (claimed reveal stream (claims.map Prod.fst)))

/-- The identifiers `XAUTOCLAIM` looks at before `limit` entries are claimed, and the one it
stopped at. -/
def autoScan (stream : StreamData) (group : ConsumerGroup) (reading : Instant)
    (minIdleMs limit : Nat) : List StreamId → Nat → List StreamId × StreamId
  | [], _ => ([], StreamId.zero)
  | id :: rest, found =>
    if limit ≤ found then ([], id)
    else
      let taken := claimsOf group reading minIdleMs [id] ≠ [] ∧
        (stream.entries.lookup id).isSome
      let (ids, next) := autoScan stream group reading minIdleMs limit rest
        (if taken then found + 1 else found)
      (id :: ids, next)

/-- What `XAUTOCLAIM` answers: where to go on, the entries, and the deleted identifiers. -/
abbrev AutoClaimed := StreamId × StreamEntries × List StreamId

def xautoclaim (reveal : Fields → Fields) (slot : Option Entry)
    (now reading appliedAt : Instant) (key group consumer : Str) (minIdleMs : Nat)
    (start : StreamId) (count : Option Nat) : Option Entry × Except String AutoClaimed :=
  withStream slot now (.error (nogroupErr group key)) fun stream =>
    withGroup stream group (.error (nogroupErr group key)) fun consumerGroup =>
      let pending := (SortedMap.rangeFrom start consumerGroup.pel).map Prod.fst
      let (ids, next) :=
        autoScan stream consumerGroup reading minIdleMs (count.getD 100) pending 0
      let claims := claimsOf consumerGroup reading minIdleMs ids
      let claimedIds := claims.map Prod.fst
      (applyLxgroupclaim consumerGroup consumer claims appliedAt,
        .ok (next, claimed reveal stream claimedIds,
          claimedIds.filter fun id => (stream.entries.lookup id).isNone))

/-! ## Reading -/

/-- The loops that push entries until the count is reached look at the count only after a
push. -/
def pushUntil {α : Type} (count : Option Nat) (result : List α) : List α → List α
  | [] => result
  | x :: rest =>
    let result := result ++ [x]
    match count with
    | some c => if c ≤ result.length then result else pushUntil count result rest
    | none => pushUntil count result rest

/-- The entries as a reader sees them. -/
def shown (reveal : Fields → Fields) (entries : StreamEntries) : StreamEntries :=
  entries.map fun p => (p.1, reveal p.2)

/-- `xrange`; nothing when the ordered map stops the server. -/
def xrange (reveal : Fields → Fields) (slot : Option Entry) (now : Instant)
    (start stop : StreamId) (count : Option Nat) : Option (Except String StreamEntries) :=
  match live slot now with
  | some (.stream stream) =>
    (SortedMap.range start stop stream.entries).map fun entries =>
      .ok (shown reveal (pushUntil count [] entries))
  | some _ => some (.error wrongType)
  | none => some (.ok [])

def xrevrange (reveal : Fields → Fields) (slot : Option Entry) (now : Instant)
    (stop start : StreamId) (count : Option Nat) : Option (Except String StreamEntries) :=
  match live slot now with
  | some (.stream stream) =>
    (SortedMap.range start stop stream.entries).map fun entries =>
      .ok (shown reveal (pushUntil count [] entries.reverse))
  | some _ => some (.error wrongType)
  | none => some (.ok [])

/-- `XRANGE` on the shard, taken while no encryption key is active: `write_stream_entries_fast`
on the stored fields. -/
def xrangeFast (slot : Option Entry) (now : Instant) (start stop : StreamId)
    (count : Option Nat) : Option (Except String StreamEntries) :=
  match live slot now with
  | some (.stream stream) =>
    (SortedMap.range start stop stream.entries).map fun entries =>
      .ok (entries.take (count.getD (2 ^ 64 - 1)))
  | some _ => some (.error wrongType)
  | none => some (.ok [])

/-- The first bound of a range. -/
def rangeStart (arg : Str) : StreamId :=
  if arg = ['-'] then StreamId.zero else (StreamId.parse arg).getD StreamId.zero

/-- The last bound of a range. -/
def rangeStop (arg : Str) : StreamId :=
  if arg = ['+'] then StreamId.max else (StreamId.parse arg).getD StreamId.max

/-- `cmd_xrange`, with its bounds as texts. -/
def cmdXrange (reveal : Fields → Fields) (slot : Option Entry) (now : Instant)
    (startArg stopArg : Str) (count : Option Nat) : Option (Except String StreamEntries) :=
  xrange reveal slot now (rangeStart startArg) (rangeStop stopArg) count

/-- `cmd_xrevrange`, whose first argument is the last bound. -/
def cmdXrevrange (reveal : Fields → Fields) (slot : Option Entry) (now : Instant)
    (stopArg startArg : Str) (count : Option Nat) : Option (Except String StreamEntries) :=
  xrevrange reveal slot now (rangeStop stopArg) (rangeStart startArg) count

/-- `XRANGE` in `execute_on_shard_read`. -/
def cmdXrangeFast (slot : Option Entry) (now : Instant) (startArg stopArg : Str)
    (count : Option Nat) : Option (Except String StreamEntries) :=
  xrangeFast slot now (rangeStart startArg) (rangeStop stopArg) count

/-- The entries from an identifier on. -/
def readFrom (reveal : Fields → Fields) (stream : StreamData) (start : StreamId)
    (count : Option Nat) : StreamEntries :=
  shown reveal (pushUntil count [] (SortedMap.rangeFrom start stream.entries))

/-- What `XREAD` finds under one key. -/
def readAfter (reveal : Fields → Fields) (slot : Option Entry) (now : Instant)
    (after : StreamId) (count : Option Nat) : StreamEntries :=
  match live slot now with
  | some (.stream stream) => readFrom reveal stream after.successor count
  | _ => []

/-- `xread`: the keys with something to read. -/
def xread (reveal : Bytes → Fields → Fields) (data : List (Bytes × Entry)) (now : Instant)
    (keys : List Str) (ids : List StreamId) (count : Option Nat) : List (Str × StreamEntries) :=
  (keys.zip ids).filterMap fun p =>
    let entries := readAfter (reveal (utf8 p.1)) (data.lookup (utf8 p.1)) now p.2 count
    if entries = [] then none else some (p.1, entries)

/-- `stream_last_id`. -/
def streamLastId (data : List (Bytes × Entry)) (now : Instant) (key : Bytes) : Option StreamId :=
  match live (data.lookup key) now with
  | some (.stream stream) => some stream.lastId
  | _ => none

/-- The identifier an argument of `XREAD` gives for a key. -/
def xreadId (data : List (Bytes × Entry)) (now : Instant) (key id : Str) : StreamId :=
  if id = ['$'] then (streamLastId data now (utf8 key)).getD StreamId.zero
  else (StreamId.parse id).getD StreamId.zero

/-- `cmd_xread` behind its options: the keys and the identifiers as the client sent them, and the
keys as they are written in the reply. -/
def cmdXread (reveal : Bytes → Fields → Fields) (data : List (Bytes × Entry)) (now : Instant)
    (streams : List (Bytes × Bytes)) (count : Option Nat) : List (Bytes × StreamEntries) :=
  (xread reveal data now (streams.map fun p => argStr p.1)
    (streams.map fun p => xreadId data now (argStr p.1) (argStr p.2)) count).map fun r =>
      (utf8 r.1, r.2)

/-! ### Reading for a group -/

/-- What a planned `XREADGROUP` will change. -/
inductive ReadEffect where
  | deliver (key : Str) (consumer : Option Str) (lastDeliveredId : StreamId)
      (pendingIds : List StreamId)
  | createConsumer (key : Str)
  deriving DecidableEq

/-- What a call of `XREADGROUP` asks for. -/
structure GroupRead where
  group : Str
  consumer : Str
  /-- The named streams, each with `>` or an identifier. -/
  streams : List (Str × Str)
  count : Option Nat
  noack : Bool
  deriving DecidableEq

/-- The entries a consumer was given before and has not acknowledged. -/
def pendingEntries (reveal : Fields → Fields) (stream : StreamData) (group : ConsumerGroup)
    (consumer : Str) (after : StreamId) (count : Option Nat) : StreamEntries :=
  let pel := (group.consumers.lookup consumer).elim ∅ (·.pel)
  let ids := (pel.filter (after < ·)).sort
  pushUntil count [] (claimed reveal stream ids)

/-- One named stream of `preview_xreadgroup`. -/
def previewOne (reveal : Bytes → Fields → Fields) (data : List (Bytes × Entry)) (now : Instant)
    (call : GroupRead) (key id : Str) :
    Except String (List (Str × StreamEntries) × List ReadEffect) :=
  match live (data.lookup (utf8 key)) now with
  | some (.stream stream) =>
    match stream.groups.lookup call.group with
    | none => .error (nogroupErr call.group key)
    | some group =>
      if id = ['>'] then
        let entries :=
          readFrom (reveal (utf8 key)) stream group.lastDeliveredId.successor call.count
        match entries.getLast? with
        | none => .ok ([], [])
        | some last =>
          .ok ([(key, entries)],
            [.deliver key (if call.noack then none else some call.consumer) last.1
              (if call.noack then [] else entries.map Prod.fst)])
      else
        let entries := pendingEntries (reveal (utf8 key)) stream group call.consumer
          ((StreamId.parse id).getD StreamId.zero) call.count
        .ok ([(key, entries)],
          if (group.consumers.lookup call.consumer).isSome then []
          else [.createConsumer key])
  | _ => .ok ([], [])

/-- `preview_xreadgroup`: everything is read before anything is changed. -/
def previewXreadgroup (reveal : Bytes → Fields → Fields) (data : List (Bytes × Entry))
    (now : Instant) (call : GroupRead) :
    Except String (List (List (Str × StreamEntries) × List ReadEffect)) :=
  call.streams.mapM fun p => previewOne reveal data now call p.1 p.2

/-- One delivered identifier becomes pending for the consumer it was given to. -/
def deliverOne (consumer : Str) (appliedAt : Instant) (group : ConsumerGroup) (id : StreamId) :
    ConsumerGroup :=
  { group with
    consumers := match group.pel.lookup id with
      | some previous => disown group.consumers previous.consumer id
      | none => group.consumers
    pel := SortedMap.insert id ⟨consumer, appliedAt, 1⟩ group.pel }

/-- `apply_lxgroupread`. -/
def applyLxgroupread (slot : Option Entry) (now appliedAt : Instant) (key group : Str)
    (consumer : Option Str) (lastDeliveredId : StreamId) (pendingIds : List StreamId) :
    Option Entry × Except String Unit :=
  withStream slot now (.error (nogroupErr group key)) fun stream =>
    withGroup stream group (.error (nogroupErr group key)) fun consumerGroup =>
      let consumerGroup := { consumerGroup with lastDeliveredId := lastDeliveredId }
      match consumer with
      | none => (consumerGroup, .ok ())
      | some consumer =>
        let consumerGroup := pendingIds.foldl (deliverOne consumer appliedAt) consumerGroup
        ({ consumerGroup with
            consumers := own consumerGroup.consumers consumer pendingIds appliedAt },
          .ok ())

/-- The slot of a key after a command on it. -/
def setSlot (data : List (Bytes × Entry)) (key : Bytes) (slot : Option Entry) :
    List (Bytes × Entry) :=
  match slot with
  | some entry => put data key entry
  | none => erase data key

/-- One effect of a planned read. -/
def applyEffect (data : List (Bytes × Entry)) (now appliedAt : Instant) (call : GroupRead)
    (effect : ReadEffect) : List (Bytes × Entry) × Except String Unit :=
  match effect with
  | .deliver key consumer lastDeliveredId pendingIds =>
    let (slot, result) := applyLxgroupread (data.lookup (utf8 key)) now appliedAt key call.group
      consumer lastDeliveredId pendingIds
    (setSlot data (utf8 key) slot, result)
  | .createConsumer key =>
    let (slot, result) :=
      xgroupCreateconsumer (data.lookup (utf8 key)) now key call.group call.consumer
    (setSlot data (utf8 key) slot, result.map fun _ => ())

/-- The effects in order, up to the first that fails. -/
def applyEffects (now appliedAt : Instant) (call : GroupRead) :
    List (Bytes × Entry) → List ReadEffect → List (Bytes × Entry) × Except String Unit
  | data, [] => (data, .ok ())
  | data, effect :: rest =>
    match applyEffect data now appliedAt call effect with
    | (data, .ok ()) => applyEffects now appliedAt call data rest
    | (data, .error message) => (data, .error message)

/-- `xreadgroup`: what was read, for each stream that was named. -/
def xreadgroup (reveal : Bytes → Fields → Fields) (data : List (Bytes × Entry))
    (now appliedAt : Instant) (call : GroupRead) :
    List (Bytes × Entry) × Except String (List (List (Str × StreamEntries))) :=
  match previewXreadgroup reveal data now call with
  | .error message => (data, .error message)
  | .ok parts =>
    match applyEffects now appliedAt call data (parts.flatMap Prod.snd) with
    | (data, .ok ()) => (data, .ok (parts.map Prod.fst))
    | (data, .error message) => (data, .error message)

end Streams

end Lux
