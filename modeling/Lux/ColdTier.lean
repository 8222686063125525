import Lux.SnapshotFile
import Lux.DiskShard

/-!
# A stay in the cold tier

A key that is evicted is written to a shard of the cold tier and removed from
memory; the next command that names it promotes it back. Its deadline travels as
a lifetime in whole milliseconds, measured from two further readings of the clock,
and a lifetime of zero is written like no lifetime at all.

A `ColdStay` is one such round: the clock readings on both ways, and what happens to
other keys of the shard meanwhile. `lookup_run` computes what the key is afterwards,
and `returns_iff_faithful` says exactly when that is what the key was. Every deadline is at
risk: one that has passed or passes within the millisecond comes back as no deadline,
and any other comes back later by what the clock advanced between the readings, up to
the fraction of a millisecond that the rounding of the lifetime cut off.
-/

namespace Lux

open ByteCodec StdText KeyedList DiskShard

/-- `is_expired_at`: a key lives up to and including its deadline. -/
def Entry.isExpiredAt (entry : Entry) (now : Instant) : Bool :=
  match entry.expiresAt with
  | some exp => exp < now
  | none => false

/-- Memory, and the shard of the cold tier that the keys at hand belong to. -/
structure TieredStore where
  memory : MemoryStore
  disk : DiskShard
  /-- Set when a cold record cannot be read; it fences mutations off. -/
  journalPoisoned : Bool
  deriving DecidableEq

/-- `key_string`, with the text that stands in for a key that is not UTF-8. -/
def keyString (lossy : Bytes → Str) (key : Bytes) : Str :=
  match fromUtf8? key with
  | some name => name
  | none => lossy key

/-- The lifetime with which a key is evicted. -/
def evictionTtl (now : Instant) : Option Instant → Int64
  | some exp => if now < exp then millisI64 (exp - now) else 0
  | none => 0

def StoreValue.isVector : StoreValue → Bool
  | .vector .. => true
  | _ => false

namespace TieredStore

/-- `evict_key`: the clock is read for the lifetime and again once the record is written,
which may be followed by a compaction. -/
def evictKey (lossy : Bytes → Str) (store : TieredStore) (key : Bytes)
    (now createdAt : Instant) (shouldCompact : Bool) : TieredStore × Bool :=
  match store.memory.data.lookup key with
  | none => (store, false)
  | some entry =>
    if entry.value.isVector then
      (store, false)
    else
      let name := keyString lossy key
      let dump := ⟨name, storeValueToDumpValue entry.value, evictionTtl now entry.expiresAt⟩
      let disk := store.disk.put name dump createdAt
      ({ store with
          memory := { store.memory with data := erase store.memory.data key }
          disk := if shouldCompact then disk.compact.1 else disk },
        true)

/-- `try_promote`: `clock.compared` is the instant of the command. -/
def tryPromote (lossy : Bytes → Str) (store : TieredStore) (key : Bytes) (clock : LoadClock) :
    TieredStore × Except String Bool :=
  let name := (fromUtf8? key).getD []
  if !store.disk.contains name then
    (store, .ok false)
  else
    match store.disk.get name clock.compared with
    | (disk, .ok none) => ({ store with disk := disk }, .ok false)
    | (disk, .error error) =>
      ({ store with disk := disk, journalPoisoned := true },
        .error ("ERR cold storage read failed for key '" ++ String.ofList (keyString lossy key) ++
          "': " ++ error.message))
    | (disk, .ok (some (value, ttl))) =>
      ({ store with
          disk := disk.remove name
          memory := store.memory.loadEntry clock name value ttl },
        .ok true)

end TieredStore

/-! ## Stays -/

/-- A key's stay in the cold tier. -/
structure ColdStay where
  evictedAt : Instant
  createdAt : Instant
  shouldCompact : Bool
  /-- What happens to the shard meanwhile. -/
  between : List DiskOp
  back : LoadClock
  /-- The process has been running for less than 292 million years. -/
  uptime : back.compared / nanosPerMs < 2 ^ 63

/-- The store up to the promotion of the key. -/
def ColdStay.meanwhile (lossy : Bytes → Str) (stay : ColdStay) (store : TieredStore)
    (key : Bytes) : TieredStore :=
  let cold := (store.evictKey lossy key stay.evictedAt stay.createdAt stay.shouldCompact).1
  { cold with disk := Runs.run DiskShard.step cold.disk stay.between }

/-- The store after the stay of a key. -/
def ColdStay.run (lossy : Bytes → Str) (stay : ColdStay) (store : TieredStore) (key : Bytes) :
    TieredStore :=
  ((stay.meanwhile lossy store key).tryPromote lossy key stay.back).1

/-- One deadline is there if the other is, and is no later. -/
def NoLater : Option Instant → Option Instant → Prop
  | some first, some second => first ≤ second
  | none, none => True
  | _, _ => False

/-- What a stay should come to: a key that lives at both ends comes back with its value
and a deadline that is no later, and a key whose deadline has passed at one of them is not
visible afterwards. -/
structure Returns (entry : Entry) (stay : ColdStay) (after : Option Entry) : Prop where
  alive : entry.isExpiredAt stay.evictedAt = false → entry.isExpiredAt stay.back.compared = false →
    ∃ back, after = some back ∧ back.value = entry.value ∧ NoLater back.expiresAt entry.expiresAt
  passed : entry.isExpiredAt stay.evictedAt = true ∨ entry.isExpiredAt stay.back.compared = true →
    ∀ back ∈ after, back.isExpiredAt stay.back.stored = true

/-! ### When it does -/

/-- The record of a key: its entry behind eight bytes of envelope. -/
def coldRecord (name : Str) (entry : Entry) (now : Instant) : Bytes :=
  writeSingleEntry ⟨name, storeValueToDumpValue entry.value, evictionTtl now entry.expiresAt⟩

/-- The key is text and its record is shorter than four gigabytes. -/
def Spillable (key : Bytes) (entry : Entry) (now : Instant) : Prop :=
  ∃ name, fromUtf8? key = some name ∧ (coldRecord name entry now).length + 8 < 2 ^ 32

namespace ColdStay

variable (stay : ColdStay)

/-- The whole milliseconds up to a deadline, as 64 bits hold them. -/
def lifetimeMs (deadline : Instant) : Nat :=
  (deadline - stay.evictedAt) / nanosPerMs % 2 ^ 64

/-- The whole milliseconds between the record and the promotion. -/
def elapsedMs : Nat := (stay.back.compared - stay.createdAt) / nanosPerMs

/-- The deadline outlives the stay and the readings of the clock do not move it back. -/
def KeepsDeadline (deadline : Instant) : Prop :=
  stay.lifetimeMs deadline < 2 ^ 63 ∧ stay.elapsedMs < stay.lifetimeMs deadline ∧
    stay.back.stored + (stay.lifetimeMs deadline - stay.elapsedMs) * nanosPerMs ≤ deadline

/-- The cold tier notices that the deadline has passed. -/
def DropsDeadline (deadline : Instant) : Prop :=
  stay.lifetimeMs deadline < 2 ^ 63 ∧ 0 < stay.lifetimeMs deadline ∧
    stay.lifetimeMs deadline ≤ stay.elapsedMs

/-- When a stay comes to what it should. -/
def Faithful (key : Bytes) (entry : Entry) : Prop :=
  if entry.isExpiredAt stay.evictedAt || entry.isExpiredAt stay.back.compared then
    Spillable key entry stay.evictedAt → ∀ deadline ∈ entry.expiresAt, stay.DropsDeadline deadline
  else
    Spillable key entry stay.evictedAt ∧
      entry.value.saturated.touchedAt stay.back.groups = entry.value ∧
        ∀ deadline ∈ entry.expiresAt, stay.KeepsDeadline deadline

end ColdStay

/-! ## Milliseconds -/

theorem millisI64_toInt (nanos : Nat) :
    (millisI64 nanos).toInt = (nanos / nanosPerMs % 2 ^ 64 : Nat) ∧
        nanos / nanosPerMs % 2 ^ 64 < 2 ^ 63 ∨
      (millisI64 nanos).toInt = (nanos / nanosPerMs % 2 ^ 64 : Nat) - 2 ^ 64 ∧
        2 ^ 63 ≤ nanos / nanosPerMs % 2 ^ 64 := by
  have hsize : (Int64.size : Int) = 2 ^ 64 := rfl
  have hdef : millisI64 nanos = Int64.ofNat (nanos / nanosPerMs) := rfl
  rw [hdef, Int64.toInt_ofNat', Int.bmod, hsize]
  omega

theorem millisI64_of_lt {nanos : Nat} (h : nanos / nanosPerMs < 2 ^ 63) :
    (millisI64 nanos).toInt = (nanos / nanosPerMs : Nat) := by
  have hmillis := millisI64_toInt nanos
  have hmod : nanos / nanosPerMs % 2 ^ 64 = nanos / nanosPerMs :=
    Nat.mod_eq_of_lt (lt_trans h (by decide))
  omega

theorem evictionTtl_some (now exp : Instant) :
    evictionTtl now (some exp) = millisI64 (exp - now) := by
  by_cases hlt : now < exp
  · exact if_pos hlt
  · rw [Nat.sub_eq_zero_of_le (not_lt.mp hlt)]
    exact if_neg hlt

namespace ColdStay

variable (stay : ColdStay)

/-- The lifetime that is written for a deadline. -/
theorem storedTtl_some (deadline : Instant) :
    (storedTtl (evictionTtl stay.evictedAt (some deadline))).toInt = stay.lifetimeMs deadline ∧
        ¬ storedTtl (evictionTtl stay.evictedAt (some deadline)) ≤ 0 ∧
        0 < stay.lifetimeMs deadline ∧ stay.lifetimeMs deadline < 2 ^ 63 ∨
      storedTtl (evictionTtl stay.evictedAt (some deadline)) = -1 ∧
        ¬ (0 < stay.lifetimeMs deadline ∧ stay.lifetimeMs deadline < 2 ^ 63) := by
  have hmillis := millisI64_toInt (deadline - stay.evictedAt)
  have hpos : 0 < millisI64 (deadline - stay.evictedAt) ↔
      0 < (millisI64 (deadline - stay.evictedAt)).toInt := Int64.lt_iff_toInt_lt
  rw [evictionTtl_some]
  unfold lifetimeMs storedTtl
  by_cases httl : 0 < millisI64 (deadline - stay.evictedAt)
  · have hint := hpos.mp httl
    rw [if_pos httl]
    exact Or.inl ⟨by omega, Int64.not_le.mpr httl, by omega⟩
  · have hint := mt hpos.mpr httl
    rw [if_neg httl]
    exact Or.inr ⟨rfl, by omega⟩

theorem elapsedMs_toInt :
    (millisI64 (stay.back.compared - stay.createdAt)).toInt = stay.elapsedMs ∧
      stay.elapsedMs < 2 ^ 63 := by
  have hlt : stay.elapsedMs < 2 ^ 63 :=
    lt_of_le_of_lt (Nat.div_le_div_right (Nat.sub_le _ _)) stay.uptime
  exact ⟨millisI64_of_lt hlt, hlt⟩

/-- What the index holds of the lifetime of a key. -/
def coldEntry (entry : Entry) (offset length : Nat) : DiskEntry :=
  ⟨offset, length, storedTtl (evictionTtl stay.evictedAt entry.expiresAt), stay.createdAt⟩

/-- The deadline a key comes back with. -/
def backDeadline (deadline : Instant) : Option Instant :=
  if 0 < stay.lifetimeMs deadline ∧ stay.lifetimeMs deadline < 2 ^ 63 then
    some (stay.back.stored + (stay.lifetimeMs deadline - stay.elapsedMs) * nanosPerMs)
  else
    none

theorem isExpired_coldEntry (entry : Entry) (offset length : Nat) :
    (stay.coldEntry entry offset length).isExpired stay.back.compared = true ↔
      ∃ deadline ∈ entry.expiresAt, stay.DropsDeadline deadline := by
  have helapsed := stay.elapsedMs_toInt
  unfold DiskEntry.isExpired coldEntry
  dsimp only
  cases hexp : entry.expiresAt with
  | none => simp [evictionTtl, storedTtl]
  | some deadline =>
    have hsome : (∃ d ∈ some deadline, stay.DropsDeadline d) ↔ stay.DropsDeadline deadline := by
      simp
    rw [hsome]
    unfold DropsDeadline
    rcases stay.storedTtl_some deadline with ⟨httl, hnot, hpos, hlt⟩ | ⟨httl, hnot⟩
    · rw [if_neg hnot, decide_eq_true_eq, Int64.le_iff_toInt_le, httl]
      omega
    · rw [httl, if_pos (by decide)]
      simp only [Bool.false_eq_true, false_iff]
      omega

/-- The lifetime that is left, as a deadline. -/
theorem remaining_coldEntry (entry : Entry) (offset length : Nat)
    (halive : (stay.coldEntry entry offset length).isExpired stay.back.compared = false) :
    (if 0 < (stay.coldEntry entry offset length).remainingTtlMs stay.back.compared then
        some ((stay.coldEntry entry offset length).remainingTtlMs stay.back.compared).toInt.toNat
      else none).map (fun ms => stay.back.stored + ms * nanosPerMs) =
        entry.expiresAt.bind stay.backDeadline := by
  have hzero : (0 : Int64).toInt = 0 := rfl
  have helapsed := stay.elapsedMs_toInt
  have hdrops := stay.isExpired_coldEntry entry offset length
  rw [halive] at hdrops
  unfold DiskEntry.remainingTtlMs coldEntry
  cases hexp : entry.expiresAt with
  | none => simp [evictionTtl, storedTtl]
  | some deadline =>
    rw [Option.bind_some]
    unfold backDeadline
    rcases stay.storedTtl_some deadline with ⟨httl, hnot, hpos, hlt⟩ | ⟨httl, hnot⟩
    · have hkeeps : stay.elapsedMs < stay.lifetimeMs deadline := by
        by_contra hle
        exact absurd (hdrops.mpr ⟨deadline, hexp, hlt, hpos, not_lt.mp hle⟩) (by simp)
      have hsub : (storedTtl (evictionTtl stay.evictedAt (some deadline)) -
          millisI64 (stay.back.compared - stay.createdAt)).toInt =
            (stay.lifetimeMs deadline - stay.elapsedMs : Nat) := by
        rw [Int64.toInt_sub, httl, Int.bmod_eq_of_le (by omega) (by omega)]
        omega
      have hnone : ¬ storedTtl (evictionTtl stay.evictedAt (some deadline)) -
          millisI64 (stay.back.compared - stay.createdAt) ≤ 0 := by
        rw [Int64.le_iff_toInt_le, hsub]
        omega
      have hsome : 0 < storedTtl (evictionTtl stay.evictedAt (some deadline)) -
          millisI64 (stay.back.compared - stay.createdAt) := by
        rw [Int64.lt_iff_toInt_lt, hsub]
        omega
      rw [if_neg hnot, if_neg hnone, if_pos hsome, hsub, if_pos ⟨hpos, hlt⟩]
      rfl
    · rw [httl, if_neg hnot]
      rfl

end ColdStay

/-! ## What a stay comes to -/

section Run

variable {lossy : Bytes → Str} {store : TieredStore} {key : Bytes} {entry : Entry}

theorem evictKey_eq (hlookup : store.memory.data.lookup key = some entry)
    (hplain : entry.value.isVector = false) (now createdAt : Instant) (shouldCompact : Bool) :
    (store.evictKey lossy key now createdAt shouldCompact).1 =
      { store with
        memory := { store.memory with data := erase store.memory.data key }
        disk := if shouldCompact then
            (store.disk.put (keyString lossy key) ⟨keyString lossy key,
              storeValueToDumpValue entry.value, evictionTtl now entry.expiresAt⟩
                createdAt).compact.1
          else
            store.disk.put (keyString lossy key) ⟨keyString lossy key,
              storeValueToDumpValue entry.value, evictionTtl now entry.expiresAt⟩ createdAt } := by
  unfold TieredStore.evictKey
  rw [hlookup]
  simp [hplain]

/-- What a promotion makes of a key that is not in memory. -/
theorem lookup_tryPromote {name : Str} (hname : fromUtf8? key = some name)
    (hcold : store.memory.data.lookup key = none) {de : DiskEntry}
    (hde : store.disk.index.lookup name = some de) (clock : LoadClock) :
    (store.tryPromote lossy key clock).1.memory.data.lookup key =
      if de.isExpired clock.compared then none
      else
        match store.disk.readIndexedEntry name de with
        | .error _ => none
        | .ok (_, value, _) =>
          some ⟨loadValue clock.groups value,
            (if 0 < de.remainingTtlMs clock.compared then
              some (de.remainingTtlMs clock.compared).toInt.toNat else none).map
                fun ms => clock.stored + ms * nanosPerMs⟩ := by
  have hkey : utf8 name = key := utf8_of_fromUtf8? hname
  unfold TieredStore.tryPromote DiskShard.contains DiskShard.get
  rw [hname, Option.getD_some]
  dsimp only
  rw [hde]
  by_cases hexpired : de.isExpired clock.compared = true
  · simp [hexpired, hcold]
  simp only [hexpired]
  cases store.disk.readIndexedEntry name de with
  | error error => simp [hcold]
  | ok read =>
    simp [MemoryStore.loadEntry, hkey, lookup_put_self]

/-- A promotion does not bring a key back that is not text. -/
theorem lookup_tryPromote_other (hname : fromUtf8? key = none)
    (hcold : store.memory.data.lookup key = none) (clock : LoadClock) :
    (store.tryPromote lossy key clock).1.memory.data.lookup key = none := by
  have hne : key ≠ utf8 [] := by
    intro heq
    rw [heq] at hname
    cases hname
  unfold TieredStore.tryPromote
  rw [hname]
  dsimp only
  split
  · exact hcold
  · split
    · exact hcold
    · exact hcold
    · exact (lookup_put_of_ne _ _ hne).trans hcold

variable (stay : ColdStay) (hlookup : store.memory.data.lookup key = some entry)
  (hplain : entry.value.isVector = false)
include hlookup hplain

theorem lookup_meanwhile : (stay.meanwhile lossy store key).memory.data.lookup key = none := by
  unfold ColdStay.meanwhile
  rw [evictKey_eq hlookup hplain]
  exact lookup_erase_self _ _

variable (hwf : store.disk.WellFormed)
  (hother : ∀ op ∈ stay.between, op.key? ≠ some (keyString lossy key))
include hwf hother

/-- What the shard stores for the key when it is promoted. -/
theorem stores_between {found : Option DumpValue}
    (hput : (store.disk.put (keyString lossy key) ⟨keyString lossy key,
        storeValueToDumpValue entry.value, evictionTtl stay.evictedAt entry.expiresAt⟩
          stay.createdAt).Stores (keyString lossy key)
            (storedTtl (evictionTtl stay.evictedAt entry.expiresAt)) stay.createdAt found) :
    (stay.meanwhile lossy store key).disk.Stores (keyString lossy key)
      (storedTtl (evictionTtl stay.evictedAt entry.expiresAt)) stay.createdAt found := by
  have hwf' := hwf.step (.put (keyString lossy key) ⟨keyString lossy key,
    storeValueToDumpValue entry.value, evictionTtl stay.evictedAt entry.expiresAt⟩ stay.createdAt)
  unfold ColdStay.meanwhile
  rw [evictKey_eq hlookup hplain]
  cases stay.shouldCompact with
  | false => exact stores_run hwf' hput hother
  | true => exact stores_run (hwf'.step .compact) (hput.compact hwf') hother

variable (hvalid : entry.value.Valid)
include hvalid

/-- The record of a text key is found again unless it has expired or is too long. -/
theorem lookup_run_text {name : Str} (hname : fromUtf8? key = some name)
    (hcut : CutDetected (coldRecord name entry stay.evictedAt)) :
    ∃ offset length, (stay.run lossy store key).memory.data.lookup key =
      if (stay.coldEntry entry offset length).isExpired stay.back.compared then none
      else if (coldRecord name entry stay.evictedAt).length + 8 < 2 ^ 32 then
        some ⟨entry.value.saturated.touchedAt stay.back.groups,
          entry.expiresAt.bind stay.backDeadline⟩
      else none := by
  have hstring : keyString lossy key = name := by
    unfold keyString
    rw [hname]
  have hbetween := @stores_between lossy store key entry stay hlookup hplain hwf hother
  rw [hstring] at hbetween
  have hcold := @lookup_meanwhile lossy store key entry stay hlookup hplain
  unfold ColdStay.run
  by_cases hshort : (coldRecord name entry stay.evictedAt).length + 8 < 2 ^ 32
  · have hclear : ∀ data metadata, entry.value ≠ .vector data metadata true := by
      intro data metadata heq
      rw [heq] at hplain
      cases hplain
    have hread := readEntry_writeSingleEntry hvalid hclear (lt_of_le_of_lt (Nat.le_add_right _ 8)
      hshort)
    obtain ⟨de, hde, httl, hcreated, -, data, hdata⟩ :=
      hbetween (put_stores hwf.format hshort hread stay.createdAt)
    have hentry : de = stay.coldEntry entry de.offset de.length := by
      cases de
      simp only [ColdStay.coldEntry] at httl hcreated ⊢
      rw [httl, hcreated]
    refine ⟨de.offset, de.length, ?_⟩
    rw [lookup_tryPromote hname hcold hde, hdata, if_pos hshort, ← hentry]
    by_cases hexpired : de.isExpired stay.back.compared = true
    · rw [if_pos hexpired, if_pos hexpired]
    have hremaining := stay.remaining_coldEntry entry de.offset de.length
      (by rw [← hentry]; simpa using hexpired)
    rw [← hentry] at hremaining
    dsimp only
    rw [hremaining, loadValue_storeValueToDumpValue _ hvalid.saturated]
  obtain ⟨de, hde, httl, hcreated, -, error, herror⟩ :=
    hbetween (put_stores_long hwf.format (not_lt.mp hshort) hcut stay.createdAt)
  have hentry : de = stay.coldEntry entry de.offset de.length := by
    cases de
    simp only [ColdStay.coldEntry] at httl hcreated ⊢
    rw [httl, hcreated]
  refine ⟨de.offset, de.length, ?_⟩
  rw [lookup_tryPromote hname hcold hde, herror, if_neg hshort, ← hentry]

/-- A spillable key whose record has not expired comes back. -/
theorem lookup_run (hspill : Spillable key entry stay.evictedAt)
    (hkept : ¬ ∃ deadline ∈ entry.expiresAt, stay.DropsDeadline deadline) :
    (stay.run lossy store key).memory.data.lookup key =
      some ⟨entry.value.saturated.touchedAt stay.back.groups,
        entry.expiresAt.bind stay.backDeadline⟩ := by
  obtain ⟨name, hname, hshort⟩ := hspill
  have hcut : CutDetected (coldRecord name entry stay.evictedAt) := fun hlong => by omega
  obtain ⟨offset, length, hrun⟩ :=
    lookup_run_text stay hlookup hplain hwf hother hvalid hname hcut
  rw [hrun, if_neg (mt (stay.isExpired_coldEntry entry offset length).mp hkept), if_pos hshort]

/-- A key that is not spillable, or whose record has expired, is gone. -/
theorem lookup_run_none
    (hcut : ∀ name, fromUtf8? key = some name → CutDetected (coldRecord name entry stay.evictedAt))
    (hgone : Spillable key entry stay.evictedAt →
      ∃ deadline ∈ entry.expiresAt, stay.DropsDeadline deadline) :
    (stay.run lossy store key).memory.data.lookup key = none := by
  cases hname : fromUtf8? key with
  | none => exact lookup_tryPromote_other hname (lookup_meanwhile stay hlookup hplain) stay.back
  | some name =>
    obtain ⟨offset, length, hrun⟩ :=
      lookup_run_text stay hlookup hplain hwf hother hvalid hname (hcut name hname)
    rw [hrun]
    by_cases hshort : (coldRecord name entry stay.evictedAt).length + 8 < 2 ^ 32
    · rw [if_pos ((stay.isExpired_coldEntry entry offset length).mpr (hgone ⟨name, hname, hshort⟩))]
    · rw [if_neg hshort, ite_self]

end Run

/-! ## The deadline that comes back -/

theorem Entry.isExpiredAt_iff {entry : Entry} {now : Instant} :
    entry.isExpiredAt now = true ↔ ∃ deadline ∈ entry.expiresAt, deadline < now := by
  unfold isExpiredAt
  cases entry.expiresAt <;> simp

theorem Entry.isExpiredAt_eq_false_iff {entry : Entry} {now : Instant} :
    entry.isExpiredAt now = false ↔ ∀ deadline ∈ entry.expiresAt, now ≤ deadline := by
  rw [← Bool.not_eq_true, isExpiredAt_iff]
  push Not
  rfl

namespace ColdStay

variable {stay : ColdStay}

/-- A deadline that comes back lies behind the promotion. -/
theorem not_expired_backDeadline (value : StoreValue) (deadline : Option Instant) :
    Entry.isExpiredAt ⟨value, deadline.bind stay.backDeadline⟩ stay.back.stored = false := by
  refine Entry.isExpiredAt_eq_false_iff.mpr fun back hback => ?_
  obtain ⟨original, -, heq⟩ := Option.bind_eq_some_iff.mp hback
  unfold backDeadline at heq
  split at heq
  · injection heq with heq
    exact heq ▸ Nat.le_add_right _ _
  · cases heq

/-- Which deadlines come back, and no later. -/
theorem noLater_backDeadline {deadline : Instant} (hkept : ¬ stay.DropsDeadline deadline) :
    NoLater (stay.backDeadline deadline) (some deadline) ↔ stay.KeepsDeadline deadline := by
  unfold DropsDeadline at hkept
  unfold backDeadline KeepsDeadline
  split
  · constructor
    · intro hle
      exact ⟨by omega, by omega, hle⟩
    · exact fun h => h.2.2
  · simp only [NoLater, false_iff]
    omega

theorem KeepsDeadline.not_drops {deadline : Instant} (h : stay.KeepsDeadline deadline) :
    ¬ stay.DropsDeadline deadline := by
  unfold KeepsDeadline at h
  unfold DropsDeadline
  omega

end ColdStay

/-! ## The result -/

/-- **When a stay in the cold tier is not noticed.**  A live key comes back with its value
and a deadline that is no later, and an expired one does not come back, exactly when the
stay is faithful to it. -/
theorem returns_iff_faithful (lossy : Bytes → Str) (store : TieredStore) (key : Bytes)
    (entry : Entry) (stay : ColdStay) (hwf : store.disk.WellFormed)
    (hlookup : store.memory.data.lookup key = some entry) (hvalid : entry.value.Valid)
    (hplain : entry.value.isVector = false)
    (hother : ∀ op ∈ stay.between, op.key? ≠ some (keyString lossy key))
    (hcut : ∀ name, fromUtf8? key = some name →
      CutDetected (coldRecord name entry stay.evictedAt)) :
    Returns entry stay ((stay.run lossy store key).memory.data.lookup key) ↔
      stay.Faithful key entry := by
  have hback := @lookup_run lossy store key entry stay hlookup hplain hwf hother hvalid
  have hgone := @lookup_run_none lossy store key entry stay hlookup hplain hwf hother hvalid hcut
  unfold ColdStay.Faithful
  by_cases hpassed : entry.isExpiredAt stay.evictedAt = true ∨
      entry.isExpiredAt stay.back.compared = true
  · rw [if_pos (by simpa using hpassed)]
    constructor
    · intro hreturns hspill deadline hdeadline
      -- A record that has not expired would come back with a life of its own.
      by_contra hkept
      have hrun := hback hspill fun ⟨other, hmem, hdrops⟩ =>
        hkept (Option.mem_unique hdeadline hmem ▸ hdrops)
      have hexpired := hreturns.passed hpassed _ hrun
      rw [ColdStay.not_expired_backDeadline] at hexpired
      cases hexpired
    · intro hdrops
      have hnone := hgone fun hspill => by
        have hsome : ∃ deadline, deadline ∈ entry.expiresAt := by
          rcases hpassed with h | h <;> obtain ⟨deadline, hmem, -⟩ := Entry.isExpiredAt_iff.mp h <;>
            exact ⟨deadline, hmem⟩
        obtain ⟨deadline, hmem⟩ := hsome
        exact ⟨deadline, hmem, hdrops hspill deadline hmem⟩
      refine ⟨fun hfirst hsecond => ?_, fun _ back hmem => ?_⟩
      · simp [hfirst, hsecond] at hpassed
      · rw [hnone] at hmem
        cases hmem
  rw [if_neg (by simpa using hpassed)]
  rw [not_or, Bool.not_eq_true, Bool.not_eq_true] at hpassed
  constructor
  · intro hreturns
    obtain ⟨back, hrun, hvalue, hlater⟩ := hreturns.alive hpassed.1 hpassed.2
    have halive : Spillable key entry stay.evictedAt ∧
        ¬ ∃ deadline ∈ entry.expiresAt, stay.DropsDeadline deadline := by
      by_contra hnot
      rw [hgone fun hspill => by simpa [hspill] using hnot] at hrun
      cases hrun
    obtain ⟨hspill, hkept⟩ := halive
    rw [hback hspill hkept] at hrun
    cases hrun
    refine ⟨hspill, hvalue, fun deadline hmem => ?_⟩
    have hexp : entry.expiresAt = some deadline := hmem
    rw [hexp] at hlater
    exact (ColdStay.noLater_backDeadline fun hdrops => hkept ⟨deadline, hmem, hdrops⟩).mp hlater
  · rintro ⟨hspill, hvalue, hkeeps⟩
    have hrun := hback hspill fun ⟨deadline, hmem, hdrops⟩ =>
      (hkeeps deadline hmem).not_drops hdrops
    refine ⟨fun _ _ => ⟨_, hrun, hvalue, ?_⟩, fun hexpired => ?_⟩
    · cases hexp : entry.expiresAt with
      | none => trivial
      | some deadline =>
        have hkeep := hkeeps deadline hexp
        exact (ColdStay.noLater_backDeadline hkeep.not_drops).mpr hkeep
    · simp [hpassed] at hexpired

/-! ### Two stays -/

/-- One string under the key `k`, and an empty shard. -/
def oneKey (expiresAt : Option Instant) : TieredStore where
  memory := ⟨[(utf8 ['k'], ⟨.str [118], expiresAt⟩)], []⟩
  disk := ⟨[], dataMagic, true, true⟩
  journalPoisoned := false

/-- Evicted and written after one millisecond, promoted after two. -/
def oneMillisecond : ColdStay where
  evictedAt := 1000000
  createdAt := 1000000
  shouldCompact := false
  between := []
  back := ⟨2000000, 2000000, 2000000⟩
  uptime := by decide

variable (expiresAt : Option Instant)

theorem spillable_oneKey (now : Instant) : Spillable (utf8 ['k']) ⟨.str [118], expiresAt⟩ now := by
  refine ⟨['k'], fromUtf8?_utf8 _, ?_⟩
  have hlen : ∀ ttl : Int64, (writeI64 ttl).length = 8 := by simp [writeI64, writeU64]
  simp only [coldRecord, writeSingleEntry, writeEntry, List.length_cons, List.length_append, hlen]
  decide

theorem wellFormed_oneKey : (oneKey expiresAt).disk.WellFormed :=
  ⟨List.nodup_nil, rfl⟩

theorem lookup_oneKey :
    (oneKey expiresAt).memory.data.lookup (utf8 ['k']) = some ⟨.str [118], expiresAt⟩ :=
  lookup_put_self [] (utf8 ['k']) _

/-- What the key holds after the stay. -/
def afterStay : Option Entry :=
  (oneMillisecond.run (fun _ => []) (oneKey expiresAt) (utf8 ['k'])).memory.data.lookup (utf8 ['k'])

/-- A string without a deadline, or with four whole milliseconds to live, comes back as it was. -/
theorem returns_iff_faithful_string :
    Returns ⟨.str [118], none⟩ oneMillisecond (afterStay none) ∧
      Returns ⟨.str [118], some 5000000⟩ oneMillisecond (afterStay (some 5000000)) := by
  have hiff : ∀ expiresAt, Returns ⟨.str [118], expiresAt⟩ oneMillisecond (afterStay expiresAt) ↔
      oneMillisecond.Faithful (utf8 ['k']) ⟨.str [118], expiresAt⟩ := by
    intro expiresAt
    refine returns_iff_faithful (fun _ => []) (oneKey expiresAt) (utf8 ['k'])
      ⟨.str [118], expiresAt⟩ oneMillisecond (wellFormed_oneKey _) (lookup_oneKey _) trivial rfl
      (by simp [oneMillisecond]) ?_
    intro name hname hlong
    obtain ⟨other, hother, hshort⟩ := spillable_oneKey expiresAt oneMillisecond.evictedAt
    rw [hname] at hother
    cases hother
    omega
  refine ⟨(hiff none).mpr ?_, (hiff (some 5000000)).mpr ?_⟩
  · exact ⟨spillable_oneKey _ _, rfl, by simp⟩
  · refine ⟨spillable_oneKey _ _, rfl, ?_⟩
    rintro deadline ⟨⟩
    unfold ColdStay.KeepsDeadline
    decide

/-- A string with half a millisecond to live comes back after its deadline, and without
one. -/
theorem oneMillisecond_immortal :
    Entry.isExpiredAt ⟨.str [118], some 1500000⟩ oneMillisecond.evictedAt = false ∧
      Entry.isExpiredAt ⟨.str [118], some 1500000⟩ oneMillisecond.back.compared = true ∧
      afterStay (some 1500000) = some ⟨.str [118], none⟩ ∧
      ¬ Returns ⟨.str [118], some 1500000⟩ oneMillisecond (afterStay (some 1500000)) := by
  have hrun : afterStay (some 1500000) = some ⟨.str [118], none⟩ := by
    refine lookup_run oneMillisecond (lookup_oneKey _) rfl (wellFormed_oneKey _)
      (by simp [oneMillisecond]) trivial (spillable_oneKey _ _) ?_
    rintro ⟨deadline, hmem, -, hpos, -⟩
    cases hmem
    exact absurd hpos (by decide)
  refine ⟨rfl, rfl, hrun, fun hreturns => ?_⟩
  have hexpired := hreturns.passed (Or.inr rfl) _ hrun
  cases hexpired

end Lux
