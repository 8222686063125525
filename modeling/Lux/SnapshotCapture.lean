import Lux.ColdTier

/-!
# What a snapshot captures

A snapshot is captured under the write barrier at one instant: every key of memory
that has not expired, then every record of the cold tier, each as a dumped value with
the lifetime it has left. The journals' checkpoints are taken at the same instant.

`captured` pairs each dumped entry with the key and the entry that clients see at that
instant, and `dumpAllFromLockedShards_eq` says that what is dumped is just that.
-/

namespace Lux

open ByteCodec StdText KeyedList List

/-! ## Dumping -/

namespace DiskShard

/-- The loop of `dump_all`. -/
def dumpKeys (now : Instant) : List Str → DiskShard → DiskShard × IoResult (List DumpEntry)
  | [], shard => (shard, .ok [])
  | key :: keys, shard =>
    match shard.get key now with
    | (shard, .error error) => (shard, .error error)
    | (shard, .ok none) => dumpKeys now keys shard
    | (shard, .ok (some (value, _))) =>
      -- `self.index[&key]`: an entry that was just read is in the index
      let ttlMs := ((shard.index.lookup key).map (·.remainingTtlMs now)).getD 0
      match dumpKeys now keys shard with
      | (shard, .error error) => (shard, .error error)
      | (shard, .ok entries) => (shard, .ok (⟨key, value, ttlMs⟩ :: entries))

def dumpAll (shard : DiskShard) (now : Instant) : DiskShard × IoResult (List DumpEntry) :=
  dumpKeys now (shard.index.map Prod.fst) shard

end DiskShard

/-- The lifetime with which a key of memory is dumped. -/
def captureTtl (now : Instant) : Option Instant → Int64
  | some exp => millisI64 (exp - now)
  | none => 0

/-- The dumped form of a key of memory. -/
def dumpHot (lossy : Bytes → Str) (now : Instant) (p : Bytes × Entry) : Option DumpEntry :=
  if p.2.isExpiredAt now then none
  else some ⟨keyString lossy p.1, storeValueToDumpValue p.2.value, captureTtl now p.2.expiresAt⟩

/-- `dump_all_from_locked_shards`. -/
def TieredStore.dumpAllFromLockedShards (lossy : Bytes → Str) (store : TieredStore)
    (now : Instant) : TieredStore × IoResult (List DumpEntry) :=
  let entries := store.memory.data.filterMap (dumpHot lossy now)
  match store.disk.dumpAll now with
  | (disk, .error error) => ({ store with disk := disk }, .error error)
  | (disk, .ok diskEntries) => ({ store with disk := disk }, .ok (entries ++ diskEntries))

/-! ## What clients see at the instant of the capture -/

/-- A key with the entry clients see, and what is dumped for it. -/
structure Captured where
  key : Bytes
  entry : Entry
  dump : DumpEntry
  deriving DecidableEq

/-- The deadline of a record: its lifetime behind the instant at which it was written. -/
def DiskEntry.deadline (de : DiskEntry) : Option Instant :=
  if 0 < de.ttlMs then some (de.createdAt + de.ttlMs.toInt.toNat * nanosPerMs) else none

def capturedHot (lossy : Bytes → Str) (now : Instant) (p : Bytes × Entry) : Option Captured :=
  (dumpHot lossy now p).map fun dump => ⟨p.1, p.2, dump⟩

/-- A record is seen as a promotion would store it. -/
def capturedCold (shard : DiskShard) (now : Instant) (name : Str) : Option Captured := do
  let de ← shard.index.lookup name
  if de.isExpired now then
    none
  else
    match shard.readIndexedEntry name de with
    | .error _ => none
    | .ok (_, value, _) =>
      some ⟨utf8 name, ⟨loadValue now value, de.deadline⟩,
        ⟨name, value, de.remainingTtlMs now⟩⟩

def TieredStore.captured (lossy : Bytes → Str) (store : TieredStore) (now : Instant) :
    List Captured :=
  store.memory.data.filterMap (capturedHot lossy now) ++
    (store.disk.index.map Prod.fst).filterMap (capturedCold store.disk now)

/-- Keys of memory occur once, those of the cold tier are others and occur once, and all
values are ones that commands build. -/
structure TieredStore.Coherent (store : TieredStore) : Prop where
  hotKeys : (store.memory.data.map Prod.fst).Nodup
  hotValid : ∀ p ∈ store.memory.data, p.2.value.Valid
  coldKeys : (store.disk.index.map Prod.fst).Nodup
  exclusive : ∀ name ∈ store.disk.index.map Prod.fst, utf8 name ∉ store.memory.data.map Prod.fst
  coldValid : ∀ p ∈ store.disk.index, ∀ data value ttlMs,
    store.disk.readIndexedEntry p.1 p.2 = .ok (data, value, ttlMs) →
      ∃ original : StoreValue, original.Valid ∧ value = storeValueToDumpValue original

/-! ## The dump is what is seen -/

variable {now : Instant}

/-- A get that succeeds shows whether a record is dumped. -/
theorem get_capturedCold {shard after : DiskShard} {name : Str}
    {found : Option (DumpValue × Option Nat)} (h : shard.get name now = (after, .ok found)) :
    (after = shard ∨ after = shard.remove name) ∧
      (found = none ∧ capturedCold shard now name = none ∨
        ∃ value ttl de, found = some (value, ttl) ∧ after = shard ∧
          shard.index.lookup name = some de ∧
          capturedCold shard now name = some ⟨utf8 name, ⟨loadValue now value, de.deadline⟩,
            ⟨name, value, de.remainingTtlMs now⟩⟩) := by
  unfold DiskShard.get at h
  unfold capturedCold
  split at h
  · rename_i hnone
    injection h with hafter hfound
    injection hfound with hfound
    exact ⟨.inl hafter.symm, .inl ⟨hfound.symm, by rw [hnone]; rfl⟩⟩
  · rename_i de hde
    rw [hde]
    split at h
    · rename_i hexpired
      injection h with hafter hfound
      injection hfound with hfound
      exact ⟨.inr hafter.symm, .inl ⟨hfound.symm, if_pos hexpired⟩⟩
    · rename_i hexpired
      split at h
      · injection h with _ hfound
        cases hfound
      · rename_i data value ttlMs hread
        injection h with hafter hfound
        injection hfound with hfound
        refine ⟨.inl hafter.symm, .inr ⟨value, _, de, hfound.symm, hafter.symm, rfl, ?_⟩⟩
        simp only [Option.bind_eq_bind, Option.bind_some, hexpired, hread]
        rfl

theorem dumpKeys_eq {shard : DiskShard} :
    ∀ {keys : List Str} {other after : DiskShard} {entries : List DumpEntry},
      keys.Nodup → other.dataFile = shard.dataFile → other.hasChecksums = shard.hasChecksums →
      (∀ key ∈ keys, other.index.lookup key = shard.index.lookup key) →
      DiskShard.dumpKeys now keys other = (after, .ok entries) →
        entries = (keys.filterMap (capturedCold shard now)).map Captured.dump := by
  intro keys
  induction keys with
  | nil =>
    intro other after entries _ _ _ _ h
    injection h with _ h
    injection h with h
    simp [← h]
  | cons key keys ih =>
    intro other after entries hnodup hfile hformat hlookup h
    obtain ⟨hnot, hnodup⟩ := nodup_cons.mp hnodup
    -- What is dumped for a key depends on the file and on the key's own index entry.
    have hsame : capturedCold other now key = capturedCold shard now key := by
      unfold capturedCold DiskShard.readIndexedEntry DiskShard.entryBytes
      rw [hfile, hformat, hlookup key mem_cons_self]
    have hrest : ∀ k ∈ keys, other.index.lookup k = shard.index.lookup k :=
      fun k hk => hlookup k (mem_cons_of_mem key hk)
    unfold DiskShard.dumpKeys at h
    rw [filterMap_cons]
    split at h
    · cases h
    · rename_i next hget
      obtain ⟨hnext, ⟨-, hnone⟩ | ⟨value, ttl, de, hsome, -⟩⟩ := get_capturedCold hget
      · rw [← hsame, hnone]
        rcases hnext with rfl | rfl
        · exact ih hnodup hfile hformat hrest h
        · have hfile' : (other.remove key).dataFile = shard.dataFile := hfile
          refine ih hnodup hfile' hformat (fun k hk => ?_) h
          have hne : k ≠ key := fun heq => hnot (heq ▸ hk)
          exact (lookup_erase_of_ne _ hne).trans (hrest k hk)
      · cases hsome
    · rename_i next value ttl hget
      obtain ⟨-, ⟨hsome, -⟩ | ⟨value', ttl', de, hsome, rfl, hde, hcaptured⟩⟩ :=
        get_capturedCold hget
      · cases hsome
      cases hsome
      rw [← hsame, hcaptured]
      split at h
      · cases h
      rename_i rest hkeys
      injection h with _ h
      injection h with h
      rw [← h, ih hnodup hfile hformat hrest hkeys, hde]
      rfl

/-- **What is dumped is what clients see.** -/
theorem dumpAllFromLockedShards_eq {lossy : Bytes → Str} {store after : TieredStore}
    {entries : List DumpEntry} (hcold : (store.disk.index.map Prod.fst).Nodup)
    (h : store.dumpAllFromLockedShards lossy now = (after, .ok entries)) :
    entries = (store.captured lossy now).map Captured.dump := by
  unfold TieredStore.dumpAllFromLockedShards DiskShard.dumpAll at h
  split at h
  · cases h
  rename_i disk diskEntries hdisk
  injection h with _ h
  injection h with h
  have hentries := dumpKeys_eq hcold rfl rfl (fun _ _ => rfl) hdisk
  have hhot : (store.memory.data.filterMap (capturedHot lossy now)).map Captured.dump =
      store.memory.data.filterMap (dumpHot lossy now) := by
    rw [map_filterMap]
    simp [capturedHot, Function.comp_def]
  rw [← h, hentries, TieredStore.captured, map_append, hhot]

/-! ## What is captured of a coherent store -/

/-- What is known of a captured key. -/
structure Captured.Proper (lossy : Bytes → Str) (now : Instant) (item : Captured) : Prop where
  name : item.dump.key = keyString lossy item.key
  value : item.dump.value = storeValueToDumpValue item.entry.value
  valid : item.entry.value.Valid
  alive : item.entry.isExpiredAt now = false
  plain : item.entry.expiresAt = none → item.dump.ttlMs ≤ 0

theorem storeValueToDumpValue_touchedAt (now : Instant) (value : StoreValue) :
    storeValueToDumpValue (value.touchedAt now) = storeValueToDumpValue value := by
  cases value with
  | stream data =>
    simp [StoreValue.touchedAt, storeValueToDumpValue, dumpGroup, ConsumerGroup.touchedAt,
      dumpConsumer, dumpPending, Consumer.touchedAt, PendingEntry.touchedAt]
  | _ => rfl

theorem ConsumerGroup.Valid.touchedAt {group : ConsumerGroup} (h : group.Valid) (now : Instant) :
    (group.touchedAt now).Valid := by
  have hnames : (group.touchedAt now).consumers.map Prod.fst = group.consumers.map Prod.fst := by
    simp [ConsumerGroup.touchedAt]
  have hids : (group.touchedAt now).pel.map Prod.fst = group.pel.map Prod.fst := by
    simp [ConsumerGroup.touchedAt]
  refine ⟨hnames ▸ h.consumers, hids ▸ h.pel, fun p hp => ?_⟩
  obtain ⟨q, hq, rfl⟩ := mem_map.mp hp
  obtain ⟨hname, hpel⟩ := h.owned q hq
  refine ⟨hnames ▸ hname, fun c hc => ?_⟩
  obtain ⟨r, hr, heq⟩ := mem_map.mp hc
  obtain ⟨hconsumer, rfl⟩ := Prod.mk.inj heq
  exact hpel r.2 (hconsumer ▸ hr)

theorem StoreValue.Valid.touchedAt {value : StoreValue} (h : value.Valid) (now : Instant) :
    (value.touchedAt now).Valid := by
  cases value with
  | stream data =>
    refine ⟨h.1, ?_, fun p hp => ?_⟩
    · have hkeys : (data.groups.map fun p => (p.1, p.2.touchedAt now)).map Prod.fst =
          data.groups.map Prod.fst := by simp
      rw [hkeys]
      exact h.2.1
    · obtain ⟨q, hq, rfl⟩ := mem_map.mp hp
      exact (h.2.2 q hq).touchedAt now
  | _ => exact h

theorem keyString_utf8 (lossy : Bytes → Str) (name : Str) : keyString lossy (utf8 name) = name := by
  unfold keyString
  rw [fromUtf8?_utf8]

/-- A record that has not expired is in front of its deadline. -/
theorem DiskEntry.deadline_alive {de : DiskEntry} (huptime : now / nanosPerMs < 2 ^ 63)
    (h : de.isExpired now = false) {deadline : Instant} (hmem : de.deadline = some deadline) :
    now ≤ deadline := by
  unfold DiskEntry.deadline at hmem
  unfold DiskEntry.isExpired at h
  split at hmem
  · rename_i hpos
    have hint := Int64.lt_iff_toInt_lt.mp hpos
    have hnot : ¬ de.ttlMs ≤ 0 := by
      rw [Int64.le_iff_toInt_le]
      omega
    have hlt : (now - de.createdAt) / nanosPerMs < 2 ^ 63 :=
      lt_of_le_of_lt (Nat.div_le_div_right (Nat.sub_le _ _)) huptime
    rw [if_neg hnot, decide_eq_false_iff_not, Int64.le_iff_toInt_le, millisI64_of_lt hlt] at h
    injection hmem with hmem
    have hdiv : (now - de.createdAt) / nanosPerMs < de.ttlMs.toInt.toNat :=
      Int.lt_toNat.mpr (not_le.mp h)
    have hmul := (Nat.div_lt_iff_lt_mul (by decide : 0 < nanosPerMs)).mp hdiv
    have hle : now ≤ de.createdAt + de.ttlMs.toInt.toNat * nanosPerMs :=
      Nat.sub_le_iff_le_add'.mp hmul.le
    rw [← hmem]
    exact hle
  · cases hmem

section Coherent

variable {lossy : Bytes → Str} {store : TieredStore} {now : Instant} {item : Captured}

theorem mem_capturedHot {p : Bytes × Entry}
    (h : capturedHot lossy now p = some item) :
    item = ⟨p.1, p.2, ⟨keyString lossy p.1, storeValueToDumpValue p.2.value,
      captureTtl now p.2.expiresAt⟩⟩ ∧ p.2.isExpiredAt now = false := by
  unfold capturedHot dumpHot at h
  split at h
  · cases h
  · rename_i halive
    injection h with h
    exact ⟨h.symm, by simpa using halive⟩

theorem mem_capturedCold {shard : DiskShard} {name : Str}
    (h : capturedCold shard now name = some item) :
    ∃ de data value ttlMs, shard.index.lookup name = some de ∧ de.isExpired now = false ∧
      shard.readIndexedEntry name de = .ok (data, value, ttlMs) ∧
      item = ⟨utf8 name, ⟨loadValue now value, de.deadline⟩,
        ⟨name, value, de.remainingTtlMs now⟩⟩ := by
  obtain ⟨de, hde, h⟩ := Option.bind_eq_some_iff.mp h
  split at h
  · cases h
  rename_i halive
  split at h
  · cases h
  · rename_i data value ttlMs hread
    injection h with h
    exact ⟨de, data, value, ttlMs, hde, by simpa using halive, hread, h.symm⟩

/-- Captured keys are live and carry valid values, and their dumps are those of the
values. -/
theorem proper_of_mem_captured (hstore : store.Coherent) (huptime : now / nanosPerMs < 2 ^ 63)
    (h : item ∈ store.captured lossy now) : item.Proper lossy now := by
  rcases mem_append.mp h with h | h
  · obtain ⟨p, hp, hitem⟩ := mem_filterMap.mp h
    obtain ⟨rfl, halive⟩ := mem_capturedHot hitem
    refine ⟨rfl, rfl, hstore.hotValid p hp, halive, fun hnone => ?_⟩
    rw [hnone]
    exact (by decide : (0 : Int64) ≤ 0)
  · obtain ⟨name, -, hitem⟩ := mem_filterMap.mp h
    obtain ⟨de, data, value, ttlMs, hde, halive, hread, rfl⟩ := mem_capturedCold hitem
    obtain ⟨original, hvalid, rfl⟩ :=
      hstore.coldValid (name, de) (mem_of_lookup hde) data value ttlMs hread
    have hloaded := loadValue_storeValueToDumpValue now hvalid
    refine ⟨(keyString_utf8 lossy name).symm, ?_, ?_, ?_, fun hnone => ?_⟩
    · rw [hloaded, storeValueToDumpValue_touchedAt]
    · rw [hloaded]
      exact hvalid.touchedAt now
    · exact Entry.isExpiredAt_eq_false_iff.mpr fun _ => de.deadline_alive huptime halive
    · dsimp only at hnone ⊢
      unfold DiskEntry.deadline at hnone
      unfold DiskEntry.remainingTtlMs
      split at hnone
      · cases hnone
      · rename_i hnot
        rw [if_pos (Int64.not_lt.mp hnot)]
        decide

/-- Captured keys are distinct. -/
theorem nodup_captured (hstore : store.Coherent) :
    ((store.captured lossy now).map Captured.key).Nodup := by
  have hhot : ((store.memory.data.filterMap (capturedHot lossy now)).map Captured.key).Sublist
      (store.memory.data.map Prod.fst) := by
    apply filterMap_keys_sublist
    intro p item hitem
    rw [(mem_capturedHot hitem).1]
  have hcold : (((store.disk.index.map Prod.fst).filterMap
      (capturedCold store.disk now)).map Captured.key).Sublist
        ((store.disk.index.map Prod.fst).map utf8) := by
    apply filterMap_keys_sublist
    intro name item hitem
    obtain ⟨de, data, value, ttlMs, -, -, -, rfl⟩ := mem_capturedCold hitem
    rfl
  unfold TieredStore.captured
  rw [map_append, nodup_append]
  refine ⟨hhot.nodup hstore.hotKeys, hcold.nodup (hstore.coldKeys.map utf8_injective), ?_⟩
  rintro a ha b hb rfl
  obtain ⟨name, hname, hkey⟩ := mem_map.mp (hcold.subset hb)
  exact hstore.exclusive name hname (hkey ▸ hhot.subset ha)

end Coherent

end Lux
