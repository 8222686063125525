import Lux.SnapshotReadBack

/-!
# A snapshot and what it restores

A snapshot of a store is captured at one instant, written some time later and loaded
later still. Lifetimes are relative at the capture, absolute in the file and relative
again at the load, and a lifetime that is not positive is written like none at all; byte
strings and collections are written at any size and read up to a limit.

`restores_iff_survives` says, for each set of clock readings, when this is unobservable: the keys
and values have sizes the readers take, and each key survives its own readings. A key with a
deadline does if it has a whole millisecond left at the capture and the clock at the load has not
moved its deadline back (`Survives`). Sufficiency follows the bytes through the loader. That the
sizes are necessary needs no bytes: it uses only what any load can have stored (`LoadedBy`), so that
it also covers files in which the reader has lost its place.
-/

namespace Lux

open ByteCodec StdText KeyedList Envelope List Captured

/-! ## The specification -/

/-- What a captured key should be after the load: if it is still alive, it has its value
and a deadline that is no later; in no case has it lost its deadline. -/
structure RestoredAs (item : Captured) (clock : LoadClock) (after : Option Entry) : Prop where
  alive : item.entry.isExpiredAt clock.stored = false →
    ∃ back, after = some back ∧ back.value = item.entry.value ∧
      NoLater back.expiresAt item.entry.expiresAt
  bounded : item.entry.expiresAt ≠ none → ∀ back ∈ after, back.expiresAt ≠ none

section Specification

variable (loader : Loader) (lossy : Bytes → Str) (store : TieredStore) (journals : Journals)
  {now : Instant} (delays : Delays now) (recovery : Option Instant)

/-- **The specification**, for one set of clock readings: a file that is saved is accepted and
restores every captured key. -/
def SnapshotRestores : Prop :=
  ∀ after entries file, store.dumpAllFromLockedShards lossy now = (after, .ok entries) →
    loader.save delays.written entries journals = .ok file → file.length < 2 ^ 64 →
    ∃ restored, loader.restore delays.load recovery file = .ok restored ∧
      ∀ (i : Nat) item, (store.captured lossy now)[i]? = some item →
        RestoredAs item (delays.load i) (restored.data.lookup item.key)

/-- The store can be saved. -/
def Savable : Prop :=
  ∃ after entries file, store.dumpAllFromLockedShards lossy now = (after, .ok entries) ∧
    loader.save delays.written entries journals = .ok file ∧ file.length < 2 ^ 64

end Specification

/-- A key and a value of sizes that the readers take, given the length of a sealed vector by the
number of its components. -/
structure Legible (loader : Loader) (sealedLen : Nat → Nat) (item : Captured) : Prop where
  text : utf8 item.dump.key = item.key
  fitsKey : loader.dialect.FitsText item.dump.key
  fits : loader.dialect.Fits item.dump.value
  fitsSealed : ∀ data metadata, item.dump.value = .vector data metadata true →
    sealedLen data.length ≤ maxSnapshotBytes

section Lifetimes

variable {now : Instant} (delays : Delays now) (recovery : Option Instant) (i : Nat)
  (item : Captured)

/-- The deadline in the file, in milliseconds: the lifetime captured, behind the instant of
writing. -/
def Delays.deadlineMs : Nat := delays.written i / nanosPerMs + item.dump.ttlMs.toInt.toNat

/-- The milliseconds left at the load. -/
def Delays.leftMs : Nat := delays.deadlineMs i item - (delays.load i).compared / nanosPerMs

/-- What a key needs to survive its readings of the clock. Its value is not changed by setting the
clocks of its consumers. A deadline is captured with at least a millisecond left and fits the file;
and while the key is alive at the load, there is time left, and the deadline set with it is no later
and not the one a recovery deletes. -/
structure Survives : Prop where
  touched : item.entry.isExpiredAt (delays.load i).stored = false →
    item.entry.value.touchedAt (delays.load i).groups = item.entry.value
  written : item.entry.expiresAt ≠ none →
    0 < item.dump.ttlMs ∧ delays.deadlineMs i item < 2 ^ 63
  keeps : item.entry.isExpiredAt (delays.load i).stored = false →
    ∀ deadline ∈ item.entry.expiresAt, 0 < delays.leftMs i item ∧
      (delays.load i).stored + delays.leftMs i item * nanosPerMs ≤ deadline ∧
        some ((delays.load i).stored + delays.leftMs i item * nanosPerMs) ≠ recovery

end Lifetimes

/-! ## What a load can have stored -/

/-- Everything in the store was read and loaded at one of the clock readings. -/
def LoadedBy (d : Dialect) (clock : Nat → LoadClock) (store : MemoryStore) : Prop :=
  ∀ p ∈ store.data, ∃ j name value, p.1 = utf8 name ∧ d.FitsText name ∧ d.Fits value ∧
    p.2.value = loadValue (clock j).groups value

theorem LoadedBy.applyEntry {d : Dialect} {clock : Nat → LoadClock} {store : MemoryStore}
    (h : LoadedBy d clock store) (mode : LoadMode) (j : Nat) {entry : Str × Int64 × DumpValue}
    (hkey : d.FitsText entry.1) (hvalue : d.Fits entry.2.2) :
    LoadedBy d clock (Lux.applyEntry mode (clock j) store entry) := by
  intro p hp
  rw [applyEntry_data] at hp
  cases hloaded : loadedEntry mode (clock j) entry.2.1 entry.2.2 with
  | none =>
    rw [hloaded] at hp
    exact h p hp
  | some loaded =>
    rw [hloaded] at hp
    rcases mem_put hp with rfl | hold
    · refine ⟨j, entry.1, entry.2.2, rfl, hkey, hvalue, ?_⟩
      unfold loadedEntry at hloaded
      split at hloaded
      · obtain ⟨sentinel, -, rfl⟩ := Option.map_eq_some_iff.mp hloaded
        rfl
      · cases hloaded
        rfl
    · exact h p hold

theorem LoadedBy.loadLoop {d : Dialect} {mode : LoadMode} {clock : Nat → LoadClock} :
    ∀ {fuel index : Nat} {input : Bytes} {store : MemoryStore}, LoadedBy d clock store →
      LoadedBy d clock (Lux.loadLoop d mode clock fuel index input store).1 := by
  intro fuel
  induction fuel with
  | zero => exact fun h => h
  | succ fuel ih =>
    intro index input store h
    unfold Lux.loadLoop
    split
    · exact h
    split
    · exact h
    · rename_i entry rest hread
      obtain ⟨hkey, hvalue⟩ := Dialect.yields_readEntry mode.groups input entry rest hread
      exact ih (h.applyEntry mode index hkey hvalue)

/-! ## Loaded values fit -/

section Loaded

variable {crypto : VectorCrypto}

theorem setFromMembers_sublist (members : List Str) : (setFromMembers members).Sublist members := by
  suffices hacc : ∀ acc : List Str, (members.foldl
      (fun set member => if member ∈ set then set else set ++ [member]) acc).Sublist
        (acc ++ members) from hacc []
  induction members with
  | nil => intro acc; simp
  | cons head members ih =>
    intro acc
    rw [foldl_cons]
    split
    · exact (ih acc).trans ((sublist_cons_self head members).append_left acc)
    · simpa using ih (acc ++ [head])

/-- A list of no more items, all of which come from a list that fits, fits. -/
theorem fitsList_of_image {α β : Type} {Fits : α → Prop} {Fits' : β → Prop} {big : List α}
    {small : List β} (h : (snapshotDialect crypto).FitsList Fits big)
    (hlength : small.length ≤ big.length) (himage : ∀ b ∈ small, ∃ a ∈ big, Fits a → Fits' b) :
    (snapshotDialect crypto).FitsList Fits' small := by
  refine ⟨le_trans hlength h.1, fun b hb => ?_⟩
  obtain ⟨a, ha, himplies⟩ := himage b hb
  exact himplies (h.2 a ha)

theorem fitsText_streamId (id : StreamId) : (snapshotDialect crypto).FitsText id.text := by
  have hms : (showNat id.ms.toNat).length ≤ 20 :=
    Nat.toDigits_length 10 _ 20 (by omega) (lt_trans (UInt64.toNat_lt id.ms) (by decide))
  have hseq : (showNat id.seq.toNat).length ≤ 20 :=
    Nat.toDigits_length 10 _ 20 (by omega) (lt_trans (UInt64.toNat_lt id.seq) (by decide))
  have hlength := utf8_length_le id.text
  have htext : id.text.length = (showNat id.ms.toNat).length +
      ((showNat id.seq.toNat).length + 1) := by
    rw [StreamId.text, length_append, length_cons]
  show (utf8 id.text).length ≤ 512 * 1024 * 1024
  omega

/-- A value without consumers that was loaded from what fits can be dumped to what fits. -/
theorem fits_of_loaded {value : StoreValue} {dump : DumpValue} {t : Instant}
    (hvalid : value.Valid) (hquiet : value.NoConsumers) (hload : value = loadValue t dump)
    (hfits : (snapshotDialect crypto).Fits dump) :
    (snapshotDialect crypto).Fits (storeValueToDumpValue value) := by
  cases dump with
  | hash pairs expiries =>
    subst hload
    exact ⟨fitsList_of_image hfits.1 (length_ofPairs_le _)
        fun p hp => ⟨p, mem_ofPairs hp, id⟩,
      fitsList_of_image hfits.2 (length_ofPairs_le _) fun p hp => ⟨p, mem_ofPairs hp, id⟩⟩
  | set members =>
    subst hload
    have hsub := setFromMembers_sublist members
    exact fitsList_of_image hfits hsub.length_le
      fun member hmember => ⟨member, hsub.subset hmember, id⟩
  | sortedSet members =>
    subst hload
    exact fitsList_of_image hfits (length_ofPairs_le _) fun p hp => ⟨p, mem_ofPairs hp, id⟩
  | stream entries lastId groups =>
    subst hload
    obtain ⟨-, hentries, hgroups⟩ := hfits
    refine ⟨fitsText_streamId _, fitsList_of_image hentries ?_ ?_, fitsList_of_image hgroups ?_ ?_⟩
    · rw [length_map]
      exact le_trans (length_ofPairs_le _) (length_filterMap_le _ _)
    · intro dumped hdumped
      obtain ⟨q, hq, rfl⟩ := mem_map.mp hdumped
      obtain ⟨r, hr, hloaded⟩ := mem_filterMap.mp (mem_ofPairs hq)
      obtain ⟨id, -, rfl⟩ := Option.map_eq_some_iff.mp hloaded
      exact ⟨r, hr, fun h => ⟨fitsText_streamId id, h.2⟩⟩
    · rw [length_map]
      exact le_trans (length_ofPairs_le _) (length_map _).le
    · intro dumped hdumped
      obtain ⟨q, hq, rfl⟩ := mem_map.mp hdumped
      obtain ⟨r, hr, hloaded⟩ := mem_map.mp (mem_ofPairs hq)
      have hconsumers : q.2.consumers = [] := hquiet q hq
      have hpel : q.2.pel = [] := by
        by_contra hne
        obtain ⟨pending, hpending⟩ := exists_mem_of_ne_nil _ hne
        have howned := ((hvalid.2.2 q hq).owned pending hpending).1
        rw [hconsumers] at howned
        cases howned
      refine ⟨r, hr, fun h => ?_⟩
      have hname : q.1 = r.1 := by rw [← hloaded]; rfl
      unfold dumpGroup
      rw [hconsumers, hpel, hname]
      exact ⟨h.1, fitsText_streamId _, Dialect.fitsList_nil _, Dialect.fitsList_nil _⟩
  | _ =>
    subst hload
    exact hfits

end Loaded

/-! ## What the clocks make of a lifetime -/

section Clocks

variable {now : Instant} {delays : Delays now} {recovery : Option Instant} {i : Nat}
  {item : Captured}

theorem toInt_toInt64_ofNat {x : Nat} (h : x < 2 ^ 64) :
    (UInt64.ofNat x).toInt64.toInt = if x < 2 ^ 63 then (x : Int) else x - 2 ^ 64 := by
  have hx : (UInt64.ofNat x).toBitVec.toNat = x := Nat.mod_eq_of_lt h
  have hdef : (UInt64.ofNat x).toInt64.toInt = (UInt64.ofNat x).toBitVec.toInt := rfl
  rw [hdef, BitVec.toInt_eq_toNat_cond, hx]
  split <;> split <;> first | rfl | omega

/-- A positive lifetime, as a natural number. -/
theorem toNat_lifetime {ttlMs : Int64} (h : 0 < ttlMs) :
    ttlMs.toUInt64.toNat = ttlMs.toInt.toNat ∧ ttlMs.toInt.toNat < 2 ^ 63 := by
  have hpos := Int64.lt_iff_toInt_lt.mp h
  have hzero : (0 : Int64).toInt = 0 := rfl
  have hlt := UInt64.toNat_lt ttlMs.toUInt64
  have hint : ttlMs.toInt = if ttlMs.toUInt64.toNat < 2 ^ 63 then (ttlMs.toUInt64.toNat : Int)
      else ttlMs.toUInt64.toNat - 2 ^ 64 := by
    simpa using toInt_toInt64_ofNat hlt
  split at hint <;> omega

/-- **The lifetime a key is loaded with**: none at all if it was not positive or does not fit the
file, and else what is left of it. -/
theorem remainingLifetime_saved (hclock : ∀ j, (delays.load j).stored / nanosPerMs < 2 ^ 63) :
    remainingLifetime true (delays.load i).compared
        (absoluteTtl (delays.written i) item.dump.ttlMs) =
      if 0 < item.dump.ttlMs ∧ delays.deadlineMs i item < 2 ^ 63 then
        if 0 < delays.leftMs i item then (some (delays.leftMs i item), false) else (none, true)
      else (none, false) := by
  have hchain : delays.written i ≤ (delays.load i).compared ∧
      (delays.load i).compared ≤ (delays.load i).stored :=
    ⟨delays.written_loaded i i, (delays.compared_groups i).trans (delays.groups_stored i)⟩
  obtain ⟨written, hwritten, hwrittenLt⟩ : ∃ written : Nat,
      delays.written i / nanosPerMs = written ∧ written < 2 ^ 63 :=
    ⟨_, rfl, lt_of_le_of_lt (Nat.div_le_div_right (hchain.1.trans hchain.2)) (hclock i)⟩
  obtain ⟨compared, hcompared, hcomparedLt⟩ : ∃ compared : Nat,
      (delays.load i).compared / nanosPerMs = compared ∧ compared < 2 ^ 63 :=
    ⟨_, rfl, lt_of_le_of_lt (Nat.div_le_div_right hchain.2) (hclock i)⟩
  have hdeadline : delays.deadlineMs i item = written + item.dump.ttlMs.toInt.toNat := by
    rw [Delays.deadlineMs, hwritten]
  have hleftMs : delays.leftMs i item = delays.deadlineMs i item - compared := by
    rw [Delays.leftMs, hcompared]
  by_cases hpos : 0 < item.dump.ttlMs
  · obtain ⟨hword, hsmall⟩ := toNat_lifetime hpos
    have hint := Int64.lt_iff_toInt_lt.mp hpos
    have hzero : (0 : Int64).toInt = 0 := rfl
    have hepoch : (nowEpochMs (delays.written i)).toNat = written := by
      rw [nowEpochMs, hwritten]
      exact Nat.mod_eq_of_lt (lt_trans hwrittenLt (by decide))
    have hnow : (nowEpochMs (delays.load i).compared).toInt64.toInt = compared := by
      rw [nowEpochMs, hcompared, toInt_toInt64_ofNat (lt_trans hcomparedLt (by decide)),
        if_pos hcomparedLt]
    have hsum : absoluteTtl (delays.written i) item.dump.ttlMs =
        (UInt64.ofNat (delays.deadlineMs i item)).toInt64 := by
      rw [absoluteTtl, if_pos hpos, hepoch, hword, min_eq_left (by omega), hdeadline]
    have habs := @toInt_toInt64_ofNat (delays.deadlineMs i item) (by omega)
    rw [← hsum] at habs
    by_cases hfits : delays.deadlineMs i item < 2 ^ 63
    · rw [if_pos hfits] at habs
      have hnot : ¬ absoluteTtl (delays.written i) item.dump.ttlMs ≤ 0 := by
        rw [Int64.le_iff_toInt_le, habs]
        omega
      have hleft : saturatingSub (absoluteTtl (delays.written i) item.dump.ttlMs)
          (nowEpochMs (delays.load i).compared).toInt64 =
            (delays.deadlineMs i item : Int) - compared := by
        rw [saturatingSub, habs, hnow]
        omega
      rw [if_pos ⟨hpos, hfits⟩, remainingLifetime, if_neg hnot, if_pos rfl]
      simp only [hleft, hleftMs]
      split
      · rw [if_neg (by omega)]
      · rw [if_pos (by omega)]
        congr 2
        omega
    · rw [if_neg hfits] at habs
      have hneg : absoluteTtl (delays.written i) item.dump.ttlMs ≤ 0 := by
        rw [Int64.le_iff_toInt_le, habs]
        omega
      rw [if_neg (fun h => hfits h.2), remainingLifetime, if_pos hneg]
  · rw [if_neg (fun h => hpos h.1), absoluteTtl, if_neg hpos]
    rfl

/-- What is left of a loaded entry when a recovery is finished. -/
def finished (recovery : Option Instant) (loaded : Option Entry) : Option Entry :=
  match recovery with
  | none => loaded
  | some sentinel => loaded.filter fun entry => entry.expiresAt != some sentinel

/-- **What becomes of an entry that is written and loaded.** -/
theorem finished_loadedEntry (hclock : ∀ j, (delays.load j).stored / nanosPerMs < 2 ^ 63) :
    finished recovery (loadedEntry ⟨.present, true, recovery⟩ (delays.load i)
        (absoluteTtl (delays.written i) item.dump.ttlMs) item.dump.value) =
      if 0 < item.dump.ttlMs ∧ delays.deadlineMs i item < 2 ^ 63 then
        if 0 < delays.leftMs i item ∧
            some ((delays.load i).stored + delays.leftMs i item * nanosPerMs) ≠ recovery then
          some ⟨loadValue (delays.load i).groups item.dump.value,
            some ((delays.load i).stored + delays.leftMs i item * nanosPerMs)⟩
        else none
      else some ⟨loadValue (delays.load i).groups item.dump.value, none⟩ := by
  have hlife := @remainingLifetime_saved now delays i item hclock
  unfold loadedEntry
  simp only [hlife]
  by_cases hwritten : 0 < item.dump.ttlMs ∧ delays.deadlineMs i item < 2 ^ 63
  · rw [if_pos hwritten, if_pos hwritten]
    by_cases hleft : 0 < delays.leftMs i item
    · rw [if_pos hleft]
      cases recovery with
      | none => simp [finished, hleft]
      | some sentinel =>
        by_cases hsame : (delays.load i).stored + delays.leftMs i item * nanosPerMs = sentinel
        · simp [finished, hsame]
        · simp [finished, hsame, hleft]
    · rw [if_neg hleft, if_neg (fun h => hleft h.1)]
      cases recovery <;> simp [finished]
  · rw [if_neg hwritten, if_neg hwritten]
    cases recovery <;> simp [finished]

/-- **A key comes back as it should exactly if it survives its readings of the clock.** -/
theorem restoredAs_iff_survives {lossy : Bytes → Str} (hproper : item.Proper lossy now)
    (hclock : ∀ j, (delays.load j).stored / nanosPerMs < 2 ^ 63) :
    RestoredAs item (delays.load i) (finished recovery (loadedEntry ⟨.present, true, recovery⟩
        (delays.load i) (absoluteTtl (delays.written i) item.dump.ttlMs) item.dump.value)) ↔
      Survives delays recovery i item := by
  rw [finished_loadedEntry hclock, hproper.value, loadValue_storeValueToDumpValue _ hproper.valid]
  constructor
  · rintro ⟨halive, hbounded⟩
    have hwritten : item.entry.expiresAt ≠ none →
        0 < item.dump.ttlMs ∧ delays.deadlineMs i item < 2 ^ 63 := by
      intro hexp
      by_contra hnot
      rw [if_neg hnot] at hbounded
      exact hbounded hexp _ rfl rfl
    refine ⟨?_, hwritten, ?_⟩
    · intro hlive
      obtain ⟨back, hback, hvalue, -⟩ := halive hlive
      split at hback
      · split at hback
        · cases hback
          exact hvalue
        · cases hback
      · cases hback
        exact hvalue
    · intro hlive deadline hdeadline
      obtain ⟨back, hback, -, hlater⟩ := halive hlive
      have hexp := Option.mem_def.mp hdeadline
      rw [if_pos (hwritten (by rw [hexp]; exact Option.some_ne_none _))] at hback
      split at hback
      · next hleft =>
          cases hback
          rw [hexp] at hlater
          exact ⟨hleft.1, hlater, hleft.2⟩
      · cases hback
  · rintro ⟨htouched, hwritten, hkeeps⟩
    cases hexp : item.entry.expiresAt with
    | none =>
      have hplain := hproper.plain hexp
      rw [if_neg (fun h => Int64.not_lt.mpr hplain h.1)]
      refine ⟨fun hlive => ⟨_, rfl, htouched hlive, ?_⟩, fun hne => absurd hexp hne⟩
      rw [hexp]
      trivial
    | some deadline =>
      rw [if_pos (hwritten (by rw [hexp]; exact Option.some_ne_none _))]
      refine ⟨fun hlive => ?_, fun _ back hback => ?_⟩
      · obtain ⟨hleft, hlater, hother⟩ := hkeeps hlive deadline hexp
        rw [if_pos ⟨hleft, hother⟩]
        refine ⟨_, rfl, htouched hlive, ?_⟩
        rw [hexp]
        exact hlater
      · split at hback
        · cases hback
          exact Option.some_ne_none _
        · cases hback

end Clocks

/-! ## The result -/

section Result

variable {loader : Loader} {lossy : Bytes → Str} {store : TieredStore} {journals : Journals}
  {now : Instant} {delays : Delays now} {recovery : Option Instant} {sealedLen : Nat → Nat}

/-- The sealed vectors of a file that was written could be sealed. -/
theorem encrypts_of_writeMany {crypto : VectorCrypto} {written : Nat → Instant} :
    ∀ {entries : List DumpEntry} {first : Nat} {tail : Bytes},
      writeMany (saveEntry crypto) (stamped written entries first) = .ok tail →
      ∀ entry ∈ entries, ∀ data metadata, entry.value = .vector data metadata true →
        ∃ sealedText, crypto.encryptVector entry.key data = .ok sealedText := by
  intro entries
  induction entries with
  | nil => intro _ _ _ entry hmem; cases hmem
  | cons head entries ih =>
    intro first tail h entry hmem data metadata hvalue
    obtain ⟨out, rest, hout, hrest, -⟩ := writeMany_stamped_cons h
    rcases mem_cons.mp hmem with rfl | hmem
    · unfold saveEntry sealValue at hout
      rw [hvalue] at hout
      dsimp only at hout
      cases hencrypt : crypto.encryptVector entry.key data with
      | error message => rw [hencrypt] at hout; cases hout
      | ok sealedText => exact ⟨sealedText, rfl⟩
    · exact ih hrest entry hmem data metadata hvalue

theorem lookup_finishRecovery {store : MemoryStore} (hkeys : (store.data.map Prod.fst).Nodup)
    (sentinel : Instant) (key : Bytes) :
    (store.finishRecovery sentinel).data.lookup key =
      finished (some sentinel) (store.data.lookup key) :=
  lookup_filter_value hkeys (fun entry => entry.expiresAt != some sentinel) key

/-- A load gives what its loop stored, without what a finished recovery deletes. -/
theorem restore_eq_ok {clock : Nat → LoadClock} {file : Bytes} {restored : MemoryStore} :
    loader.restore clock recovery file = .ok restored ↔
      ∃ loaded, loader.loadFromReader clock recovery ⟨[], []⟩ file = (loaded, .ok ()) ∧
        restored = recovery.elim loaded loaded.finishRecovery := by
  unfold Loader.restore
  cases hload : loader.loadFromReader clock recovery ⟨[], []⟩ file with
  | mk loaded result =>
    cases result with
    | error error => simp
    | ok u =>
      cases recovery <;> simp [eq_comm]

/-- A store of readable keys is loaded key by key. -/
theorem restore_legible (hstore : store.Coherent)
    (hlen : ∀ key data sealedText, loader.crypto.encryptVector key data = .ok sealedText →
      sealedText.length = sealedLen data.length)
    (hlegible : ∀ item ∈ store.captured lossy now, Legible loader sealedLen item) {file : Bytes}
    (hsave : loader.save delays.written ((store.captured lossy now).map dump) journals = .ok file)
    (hlength : file.length < 2 ^ 64) :
    ∃ restored, loader.restore delays.load recovery file = .ok restored ∧
      ∀ (i : Nat) item, (store.captured lossy now)[i]? = some item →
        restored.data.lookup item.key = finished recovery (loadedEntry ⟨.present, true, recovery⟩
          (delays.load i) (absoluteTtl (delays.written i) item.dump.ttlMs) item.dump.value) := by
  obtain ⟨tail, htail, hload⟩ := load_saved hsave hlength
  have hfits : ∀ entry ∈ (store.captured lossy now).map dump,
      FitsEntry loader.crypto entry ∧ FitsSealed loader.crypto entry := by
    intro entry hentry
    obtain ⟨item, hitem, rfl⟩ := mem_map.mp hentry
    have hitem := hlegible item hitem
    refine ⟨⟨hitem.fitsKey, hitem.fits⟩, fun data metadata sealedText hvalue hencrypt => ?_⟩
    rw [hlen _ _ _ hencrypt]
    exact hitem.fitsSealed data metadata hvalue
  have hnames : (((store.captured lossy now).map dump).map DumpEntry.key).Nodup := by
    apply Nodup.of_map utf8
    have hkeys : (((store.captured lossy now).map dump).map DumpEntry.key).map utf8 =
        (store.captured lossy now).map key := by
      rw [map_map, map_map]
      exact map_congr_left fun item hitem => (hlegible item hitem).text
    rw [hkeys]
    exact nodup_captured hstore
  have hloop := @loadLoop_saved loader.crypto ⟨.present, true, recovery⟩ delays.written
    delays.load rfl _ 0 tail.length tail ⟨[], journals.checkpoints⟩ hfits htail le_rfl
  have hkeys := @nodup_applyAll ⟨.present, true, recovery⟩ (delays.written, delays.load)
    ((store.captured lossy now).map dump) 0 ⟨[], journals.checkpoints⟩ nodup_nil
  refine ⟨_, restore_eq_ok.mpr ⟨_, (hload _ _).trans hloop, rfl⟩, fun i item hitem => ?_⟩
  have hentry : ((store.captured lossy now).map dump)[i]? = some item.dump := by
    rw [getElem?_map, hitem]
    rfl
  have hfound := @lookup_applyAll ⟨.present, true, recovery⟩ (delays.written, delays.load) _ 0
    ⟨[], journals.checkpoints⟩ i item.dump hnames (fun _ _ => rfl) hentry
  rw [(hlegible item (mem_of_getElem? hitem)).text, Nat.zero_add] at hfound
  cases recovery with
  | none => exact hfound
  | some sentinel =>
    refine (lookup_finishRecovery hkeys sentinel item.key).trans ?_
    rw [hfound]

/-- A file that is accepted and restores the living keys is one of readable keys. -/
theorem legible_of_restores (hstore : store.Coherent) (huptime : now / nanosPerMs < 2 ^ 63)
    (hlen : ∀ key data sealedText, loader.crypto.encryptVector key data = .ok sealedText →
      sealedText.length = sealedLen data.length)
    (hothers : ∀ (i : Nat) item, (store.captured lossy now)[i]? = some item →
      item.entry.isExpiredAt (delays.load i).stored = true ∨ ¬ item.entry.value.NoConsumers →
        Legible loader sealedLen item)
    (hsavable : Savable loader lossy store journals delays)
    (h : SnapshotRestores loader lossy store journals delays recovery) :
    ∀ item ∈ store.captured lossy now, Legible loader sealedLen item := by
  obtain ⟨after, entries, file, hdump, hsave, hlength⟩ := hsavable
  obtain ⟨restored, hrestored, hitems⟩ := h after entries file hdump hsave hlength
  obtain rfl := dumpAllFromLockedShards_eq hstore.coldKeys hdump
  obtain ⟨tail, htail, hload⟩ := load_saved hsave hlength
  obtain ⟨loaded, hloaded, rfl⟩ := restore_eq_ok.mp hrestored
  rw [hload] at hloaded
  have hby : LoadedBy loader.dialect delays.load
      (recovery.elim loaded loaded.finishRecovery) := by
    have hfirst : _ = loaded := congrArg Prod.fst hloaded
    have hall : LoadedBy loader.dialect delays.load loaded := by
      rw [← hfirst]
      exact LoadedBy.loadLoop fun p hp => by cases hp
    cases recovery with
    | none => exact hall
    | some sentinel => exact fun p hp => hall p (mem_of_mem_filter hp)
  have hfits : ∀ item ∈ store.captured lossy now,
      utf8 item.dump.key = item.key ∧ FitsEntry loader.crypto item.dump := by
    intro item hitem
    obtain ⟨i, hi⟩ := mem_iff_getElem?.mp hitem
    by_cases hother : item.entry.isExpiredAt (delays.load i).stored = true ∨
        ¬ item.entry.value.NoConsumers
    · have hitem := hothers i item hi hother
      exact ⟨hitem.text, hitem.fitsKey, hitem.fits⟩
    · obtain ⟨hlive, hquiet⟩ := not_or.mp hother
      obtain ⟨back, hback, hvalue, -⟩ := (hitems i item hi).alive (by simpa using hlive)
      obtain ⟨j, name, dumped, hkey, hname, hdumped, hfrom⟩ :=
        hby (item.key, back) (mem_of_lookup hback)
      have hproper := proper_of_mem_captured hstore huptime hitem
      have hdump : item.dump.key = name := by
        rw [hproper.name, show item.key = utf8 name from hkey, keyString_utf8]
      refine ⟨by rw [hdump]; exact hkey.symm, hdump ▸ hname, ?_⟩
      rw [hproper.value]
      exact fits_of_loaded hproper.valid (not_not.mp hquiet) (hvalue.symm.trans hfrom) hdumped
  have hsealed := @fitsSealed_of_loadLoop loader.crypto ⟨.present, true, recovery⟩ delays.written
    delays.load rfl ((store.captured lossy now).map dump) 0 tail.length tail
    ⟨[], journals.checkpoints⟩ (by
      intro entry hmem
      obtain ⟨other, hother, rfl⟩ := mem_map.mp hmem
      exact (hfits other hother).2) htail le_rfl (congrArg Prod.snd hloaded)
  intro item hitem
  refine ⟨(hfits item hitem).1, (hfits item hitem).2.key, (hfits item hitem).2.value, ?_⟩
  intro data metadata hvalue
  obtain ⟨sealedText, hencrypt⟩ :=
    encrypts_of_writeMany htail item.dump (mem_map_of_mem hitem) data metadata hvalue
  rw [← hlen _ _ _ hencrypt]
  exact hsealed item.dump (mem_map_of_mem hitem) data metadata sealedText hvalue hencrypt

end Result

/-- **What a snapshot restores**, for every set of clock readings: a file that is saved is accepted
and gives every key back as it should be exactly if the keys of a store that can be saved are
readable and survive. The sizes of keys that are gone by the load, and of streams with consumers,
are supposed to be readable. -/
theorem restores_iff_survives (loader : Loader) (lossy : Bytes → Str) (store : TieredStore)
    (journals : Journals) {now : Instant} (delays : Delays now) (recovery : Option Instant)
    (sealedLen : Nat → Nat) (hstore : store.Coherent)
    (hclock : ∀ j, (delays.load j).stored / nanosPerMs < 2 ^ 63)
    (hlen : ∀ key data sealedText, loader.crypto.encryptVector key data = .ok sealedText →
      sealedText.length = sealedLen data.length)
    (hothers : ∀ (i : Nat) item, (store.captured lossy now)[i]? = some item →
      item.entry.isExpiredAt (delays.load i).stored = true ∨ ¬ item.entry.value.NoConsumers →
        Legible loader sealedLen item) :
    SnapshotRestores loader lossy store journals delays recovery ↔
      (Savable loader lossy store journals delays →
        ∀ (i : Nat) item, (store.captured lossy now)[i]? = some item →
          Legible loader sealedLen item ∧ Survives delays recovery i item) := by
  have huptime : now / nanosPerMs < 2 ^ 63 := by
    refine lt_of_le_of_lt (Nat.div_le_div_right ?_) (hclock 0)
    exact (delays.captured_written 0).trans ((delays.written_loaded 0 0).trans
      ((delays.compared_groups 0).trans (delays.groups_stored 0)))
  constructor
  · intro h hsavable
    have hlegible := legible_of_restores hstore huptime hlen hothers hsavable h
    obtain ⟨after, entries, file, hdump, hsave, hlength⟩ := hsavable
    obtain ⟨restored, hrestored, hitems⟩ := h after entries file hdump hsave hlength
    obtain rfl := dumpAllFromLockedShards_eq hstore.coldKeys hdump
    obtain ⟨restored', hrestored', hlookup⟩ :=
      @restore_legible loader lossy store journals now delays recovery sealedLen hstore hlen
        hlegible file hsave hlength
    rw [hrestored] at hrestored'
    cases hrestored'
    intro i item hitem
    have hmem := mem_of_getElem? hitem
    refine ⟨hlegible item hmem, ?_⟩
    rw [← restoredAs_iff_survives (proper_of_mem_captured hstore huptime hmem) hclock,
      ← hlookup i item hitem]
    exact hitems i item hitem
  · intro h after entries file hdump hsave hlength
    have hitems := h ⟨after, entries, file, hdump, hsave, hlength⟩
    obtain rfl := dumpAllFromLockedShards_eq hstore.coldKeys hdump
    obtain ⟨restored, hrestored, hlookup⟩ :=
      @restore_legible loader lossy store journals now delays recovery sealedLen hstore hlen
        (fun item hmem => by
          obtain ⟨i, hi⟩ := mem_iff_getElem?.mp hmem
          exact (hitems i item hi).1) file hsave hlength
    refine ⟨restored, hrestored, fun i item hitem => ?_⟩
    rw [hlookup i item hitem, restoredAs_iff_survives
      (proper_of_mem_captured hstore huptime (mem_of_getElem? hitem)) hclock]
    exact (hitems i item hitem).2

/-! ### Two snapshots -/

/-- A store without journals. -/
def noJournals : Journals where
  legacy := []
  journal := none
  detached := ⟨⟨List.replicate 16 1, by decide⟩, 24, some ⟨List.replicate 16 2, by decide⟩⟩
  sources := by decide
  shards := by decide
  current _ := rfl
  fresh := by
    intro checkpoint hmem
    obtain rfl := List.mem_singleton.mp hmem
    exact ⟨by decide, _, rfl, by decide, by decide⟩

theorem coherent_oneKey (expiresAt : Option Instant) : (oneKey expiresAt).Coherent where
  hotKeys := by simp [oneKey]
  hotValid p hp := by
    obtain rfl := mem_singleton.mp hp
    trivial
  coldKeys := by simp [oneKey]
  exclusive _ h := by cases h
  coldValid _ h := by cases h

/-- Written and loaded within the first millisecond. -/
def promptDelays : Delays 0 where
  written _ := 200000
  load _ := ⟨300000, 300000, 400000⟩
  captured_written _ := by decide
  written_loaded _ _ := by decide
  compared_groups _ := by decide
  groups_stored _ := by decide

/-- Written after two milliseconds and loaded after three. -/
def lateDelays : Delays 0 where
  written _ := 2000000
  load _ := ⟨3000000, 3000000, 3000000⟩
  captured_written _ := by decide
  written_loaded _ _ := by decide
  compared_groups _ := by decide
  groups_stored _ := by decide

/-- A string with five and a half milliseconds to live survives a prompt snapshot, with five
milliseconds from the load on. -/
theorem restores_iff_survives_prompt :
    SnapshotRestores plainLoader (fun _ => []) (oneKey (some 5500000)) noJournals promptDelays
      none := by
  have hlegible : Legible plainLoader (fun n => n)
      ⟨utf8 ['k'], ⟨.str [118], some 5500000⟩, ⟨['k'], .str [118], 5⟩⟩ := by
    refine ⟨rfl, ?_, ?_, fun data metadata heq => by cases heq⟩
    · show (utf8 ['k']).length ≤ maxSnapshotBytes
      decide
    · show ([118] : Bytes).length ≤ maxSnapshotBytes
      decide
  have hsole : ∀ (i : Nat) item,
      ((oneKey (some 5500000)).captured (fun _ => []) 0)[i]? = some item →
        i = 0 ∧ item = ⟨utf8 ['k'], ⟨.str [118], some 5500000⟩, ⟨['k'], .str [118], 5⟩⟩ := by
    have hcaptured : (oneKey (some 5500000)).captured (fun _ => []) 0 =
        [⟨utf8 ['k'], ⟨.str [118], some 5500000⟩, ⟨['k'], .str [118], 5⟩⟩] := by decide
    rw [hcaptured]
    intro i item h
    obtain ⟨hi, -⟩ := List.getElem?_eq_some_iff.mp h
    exact ⟨Nat.lt_one_iff.mp hi, mem_singleton.mp (mem_of_getElem? h)⟩
  refine (restores_iff_survives plainLoader (fun _ => []) (oneKey (some 5500000)) noJournals
    promptDelays none (fun n => n) (coherent_oneKey _) (fun _ => by
      show 400000 / nanosPerMs < 2 ^ 63
      decide) ?_ ?_).mpr ?_
  · intro key data sealedText h
    cases h
  · intro i item hitem _
    obtain ⟨-, rfl⟩ := hsole i item hitem
    exact hlegible
  · intro _ i item hitem
    obtain ⟨rfl, rfl⟩ := hsole i item hitem
    refine ⟨hlegible, fun _ => rfl, fun _ => by decide, fun _ deadline hdeadline => ?_⟩
    cases Option.mem_def.mp hdeadline
    exact ⟨by decide, by decide, nofun⟩

/-- Captured five milliseconds in front of its deadline, written two milliseconds later
and loaded after another one, a string has four milliseconds to live instead of two. -/
theorem not_restores_delayed :
    (oneKey (some 5000000)).dumpAllFromLockedShards (fun _ => []) 0 =
        (oneKey (some 5000000), .ok [⟨['k'], .str [118], 5⟩]) ∧
      (∃ file, plainLoader.save (fun _ => 2000000) [⟨['k'], .str [118], 5⟩] noJournals = .ok file ∧
        plainLoader.restore (fun _ => ⟨3000000, 3000000, 3000000⟩) none file =
          .ok ⟨[(utf8 ['k'], ⟨.str [118], some 7000000⟩)], noJournals.checkpoints⟩) ∧
      ¬ SnapshotRestores plainLoader (fun _ => []) (oneKey (some 5000000)) noJournals lateDelays
        none := by
  have hdump : (oneKey (some 5000000)).dumpAllFromLockedShards (fun _ => []) 0 =
      (oneKey (some 5000000), .ok [⟨['k'], .str [118], 5⟩]) := by decide
  have hsaved : ∃ file, plainLoader.save (fun _ => 2000000) [⟨['k'], .str [118], 5⟩] noJournals =
      .ok file ∧ file.length < 2 ^ 64 ∧
        plainLoader.restore (fun _ => ⟨3000000, 3000000, 3000000⟩) none file =
          .ok ⟨[(utf8 ['k'], ⟨.str [118], some 7000000⟩)], noJournals.checkpoints⟩ := by
    have hboth : (plainLoader.save (fun _ => 2000000) [⟨['k'], .str [118], 5⟩] noJournals).map
        (fun file => (decide (file.length < 2 ^ 64),
          plainLoader.restore (fun _ => ⟨3000000, 3000000, 3000000⟩) none file)) =
        .ok (true, .ok ⟨[(utf8 ['k'], ⟨.str [118], some 7000000⟩)], noJournals.checkpoints⟩) := by
      decide
    obtain ⟨file, hsave, hfile⟩ := map_eq_ok.mp hboth
    injection hfile with hlength hrestore
    exact ⟨file, hsave, of_decide_eq_true hlength, hrestore⟩
  obtain ⟨file, hsave, hlength, hrestore⟩ := hsaved
  refine ⟨hdump, ⟨file, hsave, hrestore⟩, fun h => ?_⟩
  obtain ⟨restored, hrestored, hitems⟩ := h _ _ file hdump hsave hlength
  have hsame : restored = ⟨[(utf8 ['k'], ⟨.str [118], some 7000000⟩)], noJournals.checkpoints⟩ := by
    have heq := hrestored.symm.trans hrestore
    injection heq
  subst hsame
  have hcaptured : ((oneKey (some 5000000)).captured (fun _ => []) 0)[0]? =
      some ⟨utf8 ['k'], ⟨.str [118], some 5000000⟩, ⟨['k'], .str [118], 5⟩⟩ := by decide
  obtain ⟨back, hback, -, hlater⟩ := (hitems 0 _ hcaptured).alive rfl
  cases hback
  exact absurd hlater (by decide : ¬ (7000000 ≤ 5000000))

end Lux
