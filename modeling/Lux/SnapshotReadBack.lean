import Lux.SnapshotCapture

/-!
# Reading a snapshot back

A saved file is an envelope around the checkpoints of the journals and the dumped
entries. The loader takes all of it when the checkpoints are those of a capture and the
entries fit the readers: `load_saved` leads a load up to the loop over the entries, and
`loadLoop_saved` says what the loop then does, entry by entry, each at its own readings of
the clock. A sealed vector that is too long is refused (`fitsSealed_of_loadLoop`).
-/

namespace Lux

open ByteCodec StdText KeyedList Envelope
open List hiding lookup_isSome_iff

/-! ## Checkpoints of a capture -/

/-- `wal_checkpoints`, and the detached checkpoint of a store without journals. -/
def captureCheckpoints (legacy : List (Nat × WalCheckpoint)) (journal : Option WalCheckpoint)
    (detached : WalCheckpoint) : List (Str × WalCheckpoint) :=
  let checkpoints := legacy.map (fun p => (str "shard_" ++ showNat p.1, p.2)) ++
    (journal.map fun checkpoint => (str "global", checkpoint)).toList
  if checkpoints.isEmpty then [(str "global", detached)] else checkpoints

/-- A checkpoint as `Wal::checkpoint` and `WalCheckpoint::detached` make them. -/
def WalCheckpoint.Fresh (checkpoint : WalCheckpoint) : Prop :=
  checkpoint.offset < 2 ^ 64 ∧ ∃ successor, checkpoint.successorGeneration = some successor ∧
    successor ≠ legacyWalGeneration ∧ successor ≠ checkpoint.generation

/-- The journals a store has open: at most 64 of the older layout, each of another shard,
and these only next to the current one. -/
structure Journals where
  legacy : List (Nat × WalCheckpoint)
  journal : Option WalCheckpoint
  detached : WalCheckpoint
  sources : (legacy.map Prod.fst).Nodup
  shards : ∀ p ∈ legacy, p.1 < 64
  current : journal = none → legacy = []
  fresh : ∀ checkpoint ∈ detached :: (journal.toList ++ legacy.map Prod.snd), checkpoint.Fresh

def Journals.checkpoints (journals : Journals) : List (Str × WalCheckpoint) :=
  captureCheckpoints journals.legacy journals.journal journals.detached

/-! ## Restoring -/

/-- `finish_recovery`: the entries under the sentinel are deleted. -/
def MemoryStore.finishRecovery (store : MemoryStore) (sentinel : Instant) : MemoryStore :=
  ⟨store.data.filter fun p => p.2.expiresAt != some sentinel, []⟩

/-- Load a file into an empty store, as a recovery with a sentinel or without one. -/
def Loader.restore (loader : Loader) (clock : Nat → LoadClock) (recovery : Option Instant)
    (file : Bytes) : IoResult MemoryStore :=
  match loader.loadFromReader clock recovery ⟨[], []⟩ file with
  | (_, .error error) => .error error
  | (store, .ok ()) =>
    .ok (match recovery with
      | some sentinel => store.finishRecovery sentinel
      | none => store)

/-- The clock readings of a save and a load, for each entry. -/
structure Delays (now : Instant) where
  written : Nat → Instant
  load : Nat → LoadClock
  captured_written : ∀ i, now ≤ written i
  written_loaded : ∀ i j, written i ≤ (load j).compared
  compared_groups : ∀ j, (load j).compared ≤ (load j).groups
  groups_stored : ∀ j, (load j).groups ≤ (load j).stored

/-- Entries with the instants at which they are written. -/
def stamped (written : Nat → Instant) (entries : List DumpEntry) (first : Nat) :
    List (DumpEntry × Instant) :=
  (entries.zipIdx first).map fun p => (p.1, written p.2)

/-- The file of a capture. -/
def Loader.save (loader : Loader) (written : Nat → Instant) (entries : List DumpEntry)
    (journals : Journals) : IoResult Bytes :=
  saveSnapshotBinary loader.hash loader.crypto (stamped written entries 0) journals.checkpoints

/-! ## Reading checkpoints back -/

section Checkpoints

/-- A checkpoint that the reader takes. -/
structure ReadableCheckpoint (p : Str × WalCheckpoint) : Prop where
  nonempty : p.1 ≠ []
  chars : ∀ c ∈ p.1, isCheckpointChar c = true
  short : (utf8 p.1).length ≤ maxSnapshotBytes
  fresh : p.2.Fresh

theorem reads_readGenerationField (generation : Generation) :
    Reads readGenerationField generation.1 generation := by
  intro rest
  refine (bind_of_ok ((inverts_readExact walGenerationLen).reads generation.1 generation.2
    rest)).trans ?_
  rw [dif_pos generation.2]
  rfl

theorem reads_readSuccessor {current successor : Generation}
    (hzero : successor ≠ legacyWalGeneration) (hsame : successor ≠ current) :
    Reads (readSuccessor current) successor.1 successor := by
  intro rest
  refine (bind_of_ok (reads_readGenerationField successor rest)).trans ?_
  rw [if_neg hzero, if_neg hsame]
  rfl

theorem reads_readCheckpoint {p : Str × WalCheckpoint} (h : ReadableCheckpoint p) {out : Bytes}
    (hwrite : writeCheckpoint p = .ok out) {read : List (Str × WalCheckpoint)}
    (hnew : p.1 ∉ read.map Prod.fst) :
    Reads (readCheckpoint true read) out (read ++ [p]) := by
  obtain ⟨name, generation, offset, successor⟩ := p
  obtain ⟨hoffset, successor, hsuccessor, hzero, hsame⟩ := h.fresh
  subst hsuccessor
  cases hwrite
  have hname := Snapshot.inverts_readText.reads name h.short
  have hchars : (name.isEmpty || !name.all isCheckpointChar) = false := by
    have hne : name.isEmpty = false := by simpa using h.nonempty
    have hall : name.all isCheckpointChar = true := all_eq_true.mpr h.chars
    rw [hne, hall]
    rfl
  have hlookup : (read.lookup name).isSome = false := by
    rw [← Bool.not_eq_true]
    exact mt lookup_isSome_iff.mp hnew
  have hword : (UInt64.ofNat offset).toNat = offset := by
    exact Nat.mod_eq_of_lt hoffset
  refine hname.bind ?_
  simp only [hchars]
  refine (reads_readGenerationField generation).bind
    ((inverts_readU64.reads (UInt64.ofNat offset) trivial).bind ?_)
  have hend := (reads_readSuccessor hzero hsame).map some
  rw [← append_nil successor.1]
  refine hend.bind ?_
  simp only [hlookup, hword]
  exact Reads.pure _

variable {checkpoints : List (Str × WalCheckpoint)} {checkpoint : WalCheckpoint}

theorem reads_readCheckpoints :
    ∀ {read : List (Str × WalCheckpoint)} {out : Bytes},
      (∀ p ∈ checkpoints, ReadableCheckpoint p) → ((read ++ checkpoints).map Prod.fst).Nodup →
      writeMany writeCheckpoint checkpoints = .ok out →
        Reads (readCheckpoints true checkpoints.length read) out (read ++ checkpoints) := by
  induction checkpoints with
  | nil =>
    intro read out _ _ hwrite
    cases hwrite
    rw [append_nil]
    exact Reads.pure read
  | cons p checkpoints ih =>
    intro read out hall hnodup hwrite
    unfold writeMany at hwrite
    split at hwrite
    · cases hwrite
    rename_i first hfirst
    split at hwrite
    · cases hwrite
    rename_i rest hrest
    cases hwrite
    have hnew : p.1 ∉ read.map Prod.fst := by
      rw [map_append, nodup_append] at hnodup
      exact fun hmem => hnodup.2.2 p.1 hmem p.1 mem_cons_self rfl
    have hstep := reads_readCheckpoint (hall p mem_cons_self) hfirst hnew
    have hnodup' : (((read ++ [p]) ++ checkpoints).map Prod.fst).Nodup := by
      simpa using hnodup
    have htail := ih (fun q hq => hall q (mem_cons_of_mem p hq)) hnodup' hrest
    rw [append_assoc] at htail
    exact hstep.bind htail

/-- The checkpoints of a file are read back when there are at most 1024, of different
names, and the global one is among them. -/
theorem reads_readWalCheckpoints {out : Bytes}
    (hcount : checkpoints.length ≤ maxWalCheckpoints)
    (hall : ∀ p ∈ checkpoints, ReadableCheckpoint p)
    (hnodup : (checkpoints.map Prod.fst).Nodup)
    (hglobal : str "global" ∈ checkpoints.map Prod.fst)
    (hwrite : writeMany writeCheckpoint checkpoints = .ok out) :
    Reads (readWalCheckpoints true) (leBytes 4 checkpoints.length ++ out) checkpoints := by
  have hlt : checkpoints.length < 2 ^ 32 := lt_of_le_of_lt hcount (by decide)
  have hlist : Reads (readCheckpoints true checkpoints.length []) out checkpoints :=
    @reads_readCheckpoints checkpoints [] out hall hnodup hwrite
  refine (inverts_readU32.reads checkpoints.length hlt).bind ?_
  rw [if_neg (not_lt.mpr hcount), ← append_nil out]
  refine hlist.bind ?_
  have hsome : (checkpoints.lookup (str "global")).isNone = false := by
    have hfound := lookup_isSome_iff.mpr hglobal
    cases hlookup : checkpoints.lookup (str "global") with
    | none => rw [hlookup] at hfound; cases hfound
    | some checkpoint => rfl
  simp only [hsome]
  exact Reads.pure _

/-! ### Those of a capture -/

theorem isCheckpointChar_of_isDigit {c : Char} (h : c.isDigit = true) :
    isCheckpointChar c = true := by
  simp only [Char.isDigit, Bool.and_eq_true, decide_eq_true_eq] at h
  have hdigit : ('0' ≤ c && c ≤ '9') = true := by
    simp only [Bool.and_eq_true, decide_eq_true_eq]
    exact ⟨h.1, h.2⟩
  unfold isCheckpointChar
  rw [hdigit]
  simp

theorem utf8_length_le (s : Str) : (utf8 s).length ≤ 4 * s.length := by
  induction s with
  | nil => simp [utf8]
  | cons c s ih =>
    have hchar := Char.utf8Size_le_four c
    have hcons : utf8 (c :: s) = String.utf8EncodeChar c ++ utf8 s := rfl
    rw [hcons, length_append, String.length_utf8EncodeChar, length_cons]
    omega

theorem shardName_injective {first second : Nat}
    (h : str "shard_" ++ showNat first = str "shard_" ++ showNat second) : first = second := by
  have hdigits := congrArg digits? (append_cancel_left h)
  rw [digits?_showNat, digits?_showNat] at hdigits
  injection hdigits

theorem shardName_ne_global (n : Nat) : str "shard_" ++ showNat n ≠ str "global" := by
  intro heq
  have hshard : (str "shard_" ++ showNat n).head? = some 's' := rfl
  rw [heq] at hshard
  exact absurd hshard (by decide)

theorem readable_shardName {n : Nat} (hn : n < 64)
    (h : checkpoint.Fresh) : ReadableCheckpoint (str "shard_" ++ showNat n, checkpoint) where
  nonempty := by simp [str]
  chars c hc := by
    rcases mem_append.mp hc with hc | hc
    · have hall : (str "shard_").all isCheckpointChar = true := by decide
      exact all_eq_true.mp hall c hc
    · exact isCheckpointChar_of_isDigit (Nat.isDigit_of_mem_toDigits (by omega) le_rfl hc)
  short := by
    have hdigits : (showNat n).length ≤ 2 := Nat.toDigits_length 10 n 2 (by omega) (by omega)
    have hlength := utf8_length_le (str "shard_" ++ showNat n)
    have hname : (str "shard_").length = 6 := by decide
    rw [length_append, hname] at hlength
    unfold maxSnapshotBytes
    dsimp only
    omega
  fresh := h

theorem readable_global (h : checkpoint.Fresh) : ReadableCheckpoint (str "global", checkpoint) where
  nonempty := (by decide : str "global" ≠ [])
  chars c hc := by
    have hall : (str "global").all isCheckpointChar = true := by decide
    exact all_eq_true.mp hall c hc
  short := (by decide : (utf8 (str "global")).length ≤ maxSnapshotBytes)
  fresh := h

/-- The checkpoints of a capture, as far as the reader is concerned. -/
theorem Journals.readable (journals : Journals) :
    (∀ p ∈ journals.checkpoints, ReadableCheckpoint p) ∧
      (journals.checkpoints.map Prod.fst).Nodup ∧
      str "global" ∈ journals.checkpoints.map Prod.fst ∧
      journals.checkpoints.length ≤ maxWalCheckpoints := by
  have hfresh := journals.fresh
  unfold Journals.checkpoints captureCheckpoints
  cases hjournal : journals.journal with
  | none =>
    rw [journals.current hjournal]
    have hdetached := readable_global (hfresh journals.detached mem_cons_self)
    simpa [maxWalCheckpoints] using hdetached
  | some checkpoint =>
    have hglobal := readable_global (hfresh checkpoint (by simp [hjournal]))
    have hlegacy : ∀ p ∈ journals.legacy,
        ReadableCheckpoint (str "shard_" ++ showNat p.1, p.2) := by
      intro p hp
      refine readable_shardName (journals.shards p hp) (hfresh p.2 ?_)
      exact mem_cons_of_mem _ (mem_append_right _ (mem_map_of_mem hp))
    have hcount : journals.legacy.length ≤ 64 := by
      have hsub : (journals.legacy.map Prod.fst).length ≤ (range 64).length := by
        apply (journals.sources.subperm _).length_le
        intro n hn
        obtain ⟨p, hp, rfl⟩ := mem_map.mp hn
        exact mem_range.mpr (journals.shards p hp)
      simpa using hsub
    have hnonempty : (journals.legacy.map (fun p => (str "shard_" ++ showNat p.1, p.2)) ++
        ((some checkpoint).map fun checkpoint =>
          (str "global", checkpoint)).toList).isEmpty = false := by simp
    rw [if_neg (by rw [hnonempty]; decide)]
    refine ⟨fun p hp => ?_, ?_, by simp, ?_⟩
    · rcases mem_append.mp hp with hp | hp
      · obtain ⟨q, hq, rfl⟩ := mem_map.mp hp
        exact hlegacy q hq
      · obtain rfl : p = (str "global", checkpoint) := by simpa using hp
        exact hglobal
    · rw [map_append, map_map, nodup_append]
      refine ⟨?_, by simp, ?_⟩
      · have hnames : journals.legacy.map (Prod.fst ∘ fun p => (str "shard_" ++ showNat p.1, p.2))
            = (journals.legacy.map Prod.fst).map fun n => str "shard_" ++ showNat n := by
          simp [Function.comp_def]
        rw [hnames]
        exact journals.sources.map fun a b h => shardName_injective h
      · intro a ha b hb heq
        obtain ⟨p, -, rfl⟩ := mem_map.mp ha
        obtain rfl : b = str "global" := by simpa using hb
        exact shardName_ne_global p.1 heq
    · simp only [length_append, length_map, Option.map_some, Option.toList_some,
        length_singleton]
      unfold maxWalCheckpoints
      omega

end Checkpoints

/-! ## Reading entries back -/

section Entries

variable {crypto : VectorCrypto}

theorem sealValue_clear {key : Str} {value : DumpValue}
    (h : ∀ data metadata, value ≠ .vector data metadata true) :
    sealValue crypto key value = .ok (dumpType value, writeValue value) := by
  unfold sealValue
  split
  · exact absurd rfl (h _ _)
  · rfl

/-- What the readers take of a key and a value, and of a sealed vector. -/
structure FitsEntry (crypto : VectorCrypto) (entry : DumpEntry) : Prop where
  key : (snapshotDialect crypto).FitsText entry.key
  value : (snapshotDialect crypto).Fits entry.value

def FitsSealed (crypto : VectorCrypto) (entry : DumpEntry) : Prop :=
  ∀ data metadata sealedText, entry.value = .vector data metadata true →
    crypto.encryptVector entry.key data = .ok sealedText → sealedText.length ≤ maxSnapshotBytes

variable {entry : DumpEntry}

/-- The bytes in front of a value. -/
theorem reads_readEntry_of_value (h : FitsEntry crypto entry) (ttlMs : Int64) {typeByte : UInt8}
    {fields : Bytes}
    (hvalue : Reads ((snapshotDialect crypto).readValue .present entry.key typeByte) fields
      entry.value) :
    Reads ((snapshotDialect crypto).readEntry .present)
      (typeByte :: (writeText entry.key ++ (writeI64 ttlMs ++ fields)))
      (entry.key, ttlMs, entry.value) := by
  have htype : Reads (readExact 1) [typeByte] [typeByte] := (inverts_readExact 1).reads _ rfl
  have hend := hvalue.map fun value => (entry.key, ttlMs, value)
  exact htype.bind ((Dialect.text.reads entry.key h.key).bind
    ((inverts_readI64.reads ttlMs trivial).bind hend))

variable {out : Bytes}

/-- An entry that was written is read back when it fits. -/
theorem reads_saveEntry {now : Instant} (h : FitsEntry crypto entry)
    (hsealed : FitsSealed crypto entry) (hwrite : saveEntry crypto (entry, now) = .ok out) :
    Reads ((snapshotDialect crypto).readEntry .present) out
      (entry.key, absoluteTtl now entry.ttlMs, entry.value) := by
  by_cases hclear : ∀ data metadata, entry.value ≠ .vector data metadata true
  · unfold saveEntry at hwrite
    rw [sealValue_clear hclear] at hwrite
    cases hwrite
    exact reads_readEntry_of_value h _
      (Dialect.reads_readValue (by decide) entry.key h.value hclear)
  push Not at hclear
  obtain ⟨data, metadata, hvalue⟩ := hclear
  have hmetadata := h.value
  rw [hvalue] at hmetadata
  unfold saveEntry sealValue at hwrite
  rw [hvalue] at hwrite
  dsimp only at hwrite
  cases hencrypt : crypto.encryptVector entry.key data with
  | error message =>
    rw [hencrypt] at hwrite
    cases hwrite
  | ok sealedText =>
    rw [hencrypt] at hwrite
    cases hwrite
    have hshort := hsealed data metadata sealedText hvalue hencrypt
    apply reads_readEntry_of_value h
    rw [hvalue]
    have hread := Snapshot.inverts_readBytes.reads sealedText hshort
    have hmeta := Dialect.reads_readMetadata (d := snapshotDialect crypto) hmetadata.2
    rw [← append_nil (writeMetadata metadata)]
    refine hread.bind (hmeta.bind ?_)
    rw [crypto.decrypt_encrypt _ _ _ hencrypt]
    exact Reads.pure _

/-- A sealed vector that is too long is refused. -/
theorem readEntry_sealed_long {now : Instant} (h : FitsEntry crypto entry)
    (hlong : ¬ FitsSealed crypto entry) (hwrite : saveEntry crypto (entry, now) = .ok out)
    (rest : Bytes) :
    ∃ error, (snapshotDialect crypto).readEntry .present (out ++ rest) = .error error := by
  unfold FitsSealed at hlong
  push Not at hlong
  obtain ⟨data, metadata, sealedText, hvalue, hencrypt, hlength⟩ := hlong
  unfold saveEntry sealValue at hwrite
  rw [hvalue] at hwrite
  dsimp only at hwrite
  rw [hencrypt] at hwrite
  cases hwrite
  have hshort := crypto.short _ _ _ hencrypt
  have htype : Reads (readExact 1) [tag 'W'] [tag 'W'] := (inverts_readExact 1).reads _ rfl
  have hkey := Dialect.text.reads entry.key h.key
  have httl := inverts_readI64.reads (absoluteTtl now entry.ttlMs) trivial
  have hcount := inverts_readU32.reads sealedText.length hshort
  have hbytes : ∀ more, Snapshot.readBytes (writeBytes sealedText ++ more) =
      .error ⟨.invalidData, "snapshot byte string length exceeds maximum"⟩ := by
    intro more
    refine (bind_of_ok (hcount _)).trans ?_
    rw [if_pos hlength]
    rfl
  refine ⟨⟨.invalidData, "snapshot byte string length exceeds maximum"⟩, ?_⟩
  have hsplit : tag 'W' :: (writeText entry.key ++ (writeI64 (absoluteTtl now entry.ttlMs) ++
      (writeBytes sealedText ++ writeMetadata metadata))) ++ rest =
        [tag 'W'] ++ (writeText entry.key ++ (writeI64 (absoluteTtl now entry.ttlMs) ++
          (writeBytes sealedText ++ (writeMetadata metadata ++ rest)))) := by simp
  rw [hsplit]
  refine (bind_of_ok (htype _)).trans ((bind_of_ok (hkey _)).trans ((bind_of_ok (httl _)).trans ?_))
  have hrefused : (snapshotDialect crypto).readValue .present entry.key (tag 'W')
      (writeBytes sealedText ++ (writeMetadata metadata ++ rest)) =
        .error ⟨.invalidData, "snapshot byte string length exceeds maximum"⟩ := by
    have hdef : (snapshotDialect crypto).readValue .present entry.key (tag 'W') =
        readSealedVector crypto entry.key := rfl
    rw [hdef]
    unfold readSealedVector
    simp only [bind, StateT.bind, hbytes]
    rfl
  simp only [headD_cons, bind, StateT.bind, hrefused]
  rfl

/-! ### The loop -/

theorem saveEntry_ne_nil {p : DumpEntry × Instant}
    (h : saveEntry crypto p = .ok out) : out ≠ [] := by
  unfold saveEntry at h
  split at h
  · cases h
  · injection h with h
    rw [← h]
    exact cons_ne_nil _ _

/-- What the loop makes of entries that fit. -/
def applyAll (mode : LoadMode) (delays : (Nat → Instant) × (Nat → LoadClock))
    (entries : List DumpEntry) (first : Nat) (store : MemoryStore) : MemoryStore :=
  (entries.zipIdx first).foldl (fun store p => applyEntry mode (delays.2 p.2) store
    (p.1.key, absoluteTtl (delays.1 p.2) p.1.ttlMs, p.1.value)) store

variable {mode : LoadMode} {written : Nat → Instant} {clock : Nat → LoadClock}

theorem writeMany_stamped_cons {entries : List DumpEntry} {first : Nat} {tail : Bytes}
    (h : writeMany (saveEntry crypto) (stamped written (entry :: entries) first) = .ok tail) :
    ∃ out rest, saveEntry crypto (entry, written first) = .ok out ∧
      writeMany (saveEntry crypto) (stamped written entries (first + 1)) = .ok rest ∧
      tail = out ++ rest := by
  unfold stamped at h
  rw [zipIdx_cons, map_cons] at h
  unfold writeMany at h
  split at h
  · cases h
  rename_i out hout
  split at h
  · cases h
  · rename_i rest hrest
    injection h with h
    exact ⟨out, rest, hout, hrest, h.symm⟩

/-- One pass over an entry that fits. -/
theorem loadLoop_cons {d : Dialect} {raw rest : Bytes} {entry : Str × Int64 × DumpValue}
    (hread : Reads (d.readEntry mode.groups) raw entry) (hne : raw ≠ []) (fuel index : Nat)
    (store : MemoryStore) :
    loadLoop d mode clock (fuel + 1) index (raw ++ rest) store =
      loadLoop d mode clock fuel (index + 1) rest (applyEntry mode (clock index) store entry) := by
  have hempty : (raw ++ rest).isEmpty = false := by
    rw [isEmpty_eq_false_iff]
    exact fun heq => hne (append_eq_nil_iff.mp heq).1
  rw [loadLoop, hempty, hread rest]
  rfl

/-- **Entries that fit are loaded one by one**, each at its own clock readings. -/
theorem loadLoop_saved (hmode : mode.groups = .present) :
    ∀ {entries : List DumpEntry} {first fuel : Nat} {tail : Bytes} {store : MemoryStore},
      (∀ entry ∈ entries, FitsEntry crypto entry ∧ FitsSealed crypto entry) →
      writeMany (saveEntry crypto) (stamped written entries first) = .ok tail →
      tail.length ≤ fuel →
      loadLoop (snapshotDialect crypto) mode clock fuel first tail store =
        (applyAll mode (written, clock) entries first store, .ok ()) := by
  intro entries
  induction entries with
  | nil =>
    intro first fuel tail store _ hwrite _
    cases hwrite
    cases fuel <;> rfl
  | cons entry entries ih =>
    intro first fuel tail store hfits hwrite hfuel
    obtain ⟨out, rest, hout, hrest, rfl⟩ := writeMany_stamped_cons hwrite
    have hne := saveEntry_ne_nil hout
    have hpos := length_pos_iff.mpr hne
    rw [length_append] at hfuel
    obtain ⟨fuel, rfl⟩ : ∃ n, fuel = n + 1 := ⟨fuel - 1, by omega⟩
    obtain ⟨hentry, hsealed⟩ := hfits entry mem_cons_self
    have hread := reads_saveEntry hentry hsealed hout
    rw [← hmode] at hread
    rw [loadLoop_cons hread hne]
    exact ih (fun other hmem => hfits other (mem_cons_of_mem entry hmem)) hrest (by omega)

/-- A load of entries that fit is refused by a sealed vector that does not. -/
theorem fitsSealed_of_loadLoop (hmode : mode.groups = .present) :
    ∀ {entries : List DumpEntry} {first fuel : Nat} {tail : Bytes} {store : MemoryStore},
      (∀ entry ∈ entries, FitsEntry crypto entry) →
      writeMany (saveEntry crypto) (stamped written entries first) = .ok tail →
      tail.length ≤ fuel →
      (loadLoop (snapshotDialect crypto) mode clock fuel first tail store).2 = .ok () →
      ∀ entry ∈ entries, FitsSealed crypto entry := by
  intro entries
  induction entries with
  | nil => intro _ _ _ _ _ _ _ _ entry hmem; cases hmem
  | cons entry entries ih =>
    intro first fuel tail store hfits hwrite hfuel hload
    obtain ⟨out, rest, hout, hrest, rfl⟩ := writeMany_stamped_cons hwrite
    have hne := saveEntry_ne_nil hout
    have hpos := length_pos_iff.mpr hne
    rw [length_append] at hfuel
    obtain ⟨fuel, rfl⟩ : ∃ n, fuel = n + 1 := ⟨fuel - 1, by omega⟩
    have hentry := hfits entry mem_cons_self
    by_cases hsealed : FitsSealed crypto entry
    · have hread := reads_saveEntry hentry hsealed hout
      rw [← hmode] at hread
      rw [loadLoop_cons hread hne] at hload
      intro other hmem
      rcases mem_cons.mp hmem with rfl | hmem
      · exact hsealed
      · exact ih (fun other hmem => hfits other (mem_cons_of_mem entry hmem)) hrest
          (by omega) hload other hmem
    · obtain ⟨error, herror⟩ := readEntry_sealed_long hentry hsealed hout rest
      have hempty : (out ++ rest).isEmpty = false := by
        rw [isEmpty_eq_false_iff]
        exact fun heq => hne (append_eq_nil_iff.mp heq).1
      rw [loadLoop, hempty, hmode, herror] at hload
      cases hload

end Entries

/-! ## What the entries come to -/

section Lookup

variable {mode : LoadMode} {delays : (Nat → Instant) × (Nat → LoadClock)}

/-- What is stored for an entry that was read, if anything is. -/
def loadedEntry (mode : LoadMode) (clock : LoadClock) (ttlMs : Int64) (value : DumpValue) :
    Option Entry :=
  match remainingLifetime mode.absoluteTtl clock.compared ttlMs with
  | (_, true) =>
    mode.preserveExpired.map fun sentinel => ⟨loadValue clock.groups value, some sentinel⟩
  | (ttl, false) =>
    some ⟨loadValue clock.groups value, ttl.map fun ms => clock.stored + ms * nanosPerMs⟩

theorem applyEntry_data (mode : LoadMode) (clock : LoadClock) (store : MemoryStore)
    (entry : Str × Int64 × DumpValue) :
    (applyEntry mode clock store entry).data =
      (loadedEntry mode clock entry.2.1 entry.2.2).elim store.data
        (put store.data (utf8 entry.1)) := by
  unfold applyEntry loadedEntry
  cases hlife : remainingLifetime mode.absoluteTtl clock.compared entry.2.1 with
  | mk ttl expired =>
    cases expired with
    | false => rfl
    | true => cases mode.preserveExpired <;> rfl

theorem lookup_applyEntry_self (mode : LoadMode) (clock : LoadClock) (store : MemoryStore)
    (entry : Str × Int64 × DumpValue) (hnew : store.data.lookup (utf8 entry.1) = none) :
    (applyEntry mode clock store entry).data.lookup (utf8 entry.1) =
      loadedEntry mode clock entry.2.1 entry.2.2 := by
  rw [applyEntry_data]
  cases loadedEntry mode clock entry.2.1 entry.2.2 with
  | none => exact hnew
  | some loaded => exact lookup_put_self _ _ _

/-- An entry of another name leaves a key alone. -/
theorem lookup_applyEntry_of_ne (mode : LoadMode) (clock : LoadClock) (store : MemoryStore)
    {entry : Str × Int64 × DumpValue} {name : Str} (hne : entry.1 ≠ name) :
    (applyEntry mode clock store entry).data.lookup (utf8 name) =
      store.data.lookup (utf8 name) := by
  rw [applyEntry_data]
  cases loadedEntry mode clock entry.2.1 entry.2.2 with
  | none => rfl
  | some loaded => exact lookup_put_of_ne _ _ fun heq => hne (utf8_injective heq.symm)

theorem applyAll_cons {entry : DumpEntry} {entries : List DumpEntry} {first : Nat}
    {store : MemoryStore} :
    applyAll mode delays (entry :: entries) first store = applyAll mode delays entries (first + 1)
      (applyEntry mode (delays.2 first) store
        (entry.key, absoluteTtl (delays.1 first) entry.ttlMs, entry.value)) := by
  rw [applyAll, zipIdx_cons, foldl_cons]
  rfl

theorem lookup_applyAll_other {name : Str} :
    ∀ {entries : List DumpEntry} {first : Nat} {store : MemoryStore},
      (∀ entry ∈ entries, entry.key ≠ name) →
      (applyAll mode delays entries first store).data.lookup (utf8 name) =
        store.data.lookup (utf8 name) := by
  intro entries
  induction entries with
  | nil => intro first store _; rfl
  | cons entry entries ih =>
    intro first store h
    rw [applyAll_cons, ih fun other hmem => h other (mem_cons_of_mem entry hmem)]
    exact lookup_applyEntry_of_ne _ _ _ (h entry mem_cons_self)

/-- **What is stored for an entry of a file**, of entries of different names. -/
theorem lookup_applyAll :
    ∀ {entries : List DumpEntry} {first : Nat} {store : MemoryStore} {i : Nat} {entry : DumpEntry},
      (entries.map DumpEntry.key).Nodup →
      (∀ entry ∈ entries, store.data.lookup (utf8 entry.key) = none) →
      entries[i]? = some entry →
      (applyAll mode delays entries first store).data.lookup (utf8 entry.key) =
        loadedEntry mode (delays.2 (first + i)) (absoluteTtl (delays.1 (first + i)) entry.ttlMs)
          entry.value := by
  intro entries
  induction entries with
  | nil => intro _ _ _ _ _ _ h; cases h
  | cons head entries ih =>
    intro first store i entry hnodup hnew hget
    obtain ⟨hnot, hnodup⟩ := nodup_cons.mp hnodup
    have hne : ∀ other ∈ entries, head.key ≠ other.key := by
      intro other hmem heq
      exact hnot (heq ▸ mem_map_of_mem hmem)
    rw [applyAll_cons]
    cases i with
    | zero =>
      cases hget
      rw [lookup_applyAll_other fun other hmem => (hne other hmem).symm]
      exact lookup_applyEntry_self mode (delays.2 first) store
        (head.key, absoluteTtl (delays.1 first) head.ttlMs, head.value) (hnew head mem_cons_self)
    | succ i =>
      have hrest : ∀ other ∈ entries, (applyEntry mode (delays.2 first) store
          (head.key, absoluteTtl (delays.1 first) head.ttlMs, head.value)).data.lookup
            (utf8 other.key) = none := by
        intro other hmem
        rw [lookup_applyEntry_of_ne _ _ _ (hne other hmem)]
        exact hnew other (mem_cons_of_mem head hmem)
      have hlookup := @ih (first + 1) _ i entry hnodup hrest hget
      rwa [Nat.add_right_comm] at hlookup

/-- Each key is stored once. -/
theorem nodup_applyAll :
    ∀ {entries : List DumpEntry} {first : Nat} {store : MemoryStore},
      (store.data.map Prod.fst).Nodup →
      ((applyAll mode delays entries first store).data.map Prod.fst).Nodup := by
  intro entries
  induction entries with
  | nil => exact fun h => h
  | cons entry entries ih =>
    intro first store h
    rw [applyAll_cons]
    apply ih
    rw [applyEntry_data]
    cases loadedEntry mode (delays.2 first) (absoluteTtl (delays.1 first) entry.ttlMs)
        entry.value with
    | none => exact h
    | some loaded => exact nodup_put h _ _

end Lookup

/-! ## Opening a file that was saved -/

theorem openBody_ok {hash : Hash} {body : Bytes} (h : 4 + 8 + digestLen + body.length < 2 ^ 64) :
    openBody hash (leBytes 8 body.length ++ (hash.digest body ++ body)) = .ok ((), body) := by
  have hread : readU64 (leBytes 8 body.length ++ (hash.digest body ++ body)) =
      .ok (UInt64.ofNat (ofLeBytes (leBytes 8 body.length)), hash.digest body ++ body) :=
    bind_of_ok (readExact_append (leBytes_length 8 _) _)
  have hlen : (UInt64.ofNat (ofLeBytes (leBytes 8 body.length))).toNat = body.length := by
    have hlt : body.length < 256 ^ 8 := by omega
    rw [ofLeBytes_leBytes, Nat.mod_eq_of_lt hlt]
    exact Nat.mod_eq_of_lt (by omega)
  have hverify : verifySnapshotBody hash (4 + 8 + digestLen) body body.length (hash.digest body) =
      .ok () := by
    unfold verifySnapshotBody
    rw [if_neg (by omega)]
    simp
  simp only [openBody, hread, readExact_append (hash.digest_length body), hlen, hverify, bind,
    Except.bind]

/-- Past its envelope, a saved file is its checkpoints and its entries. -/
theorem loadFromReader_saved {loader : Loader} {clock : Nat → LoadClock}
    {recovery : Option Instant} {store : MemoryStore} {body : Bytes}
    (h : (envelope loader.hash (snapshotHeader 6) body).length < 2 ^ 64) :
    loader.loadFromReader clock recovery store (envelope loader.hash (snapshotHeader 6) body) =
      loadCheckpointed loader.dialect clock recovery true store body := by
  have hlen : 4 + 8 + digestLen + body.length < 2 ^ 64 := by
    rw [envelope_length] at h
    exact h
  have hshort : ¬ (envelope loader.hash (snapshotHeader 6) body).length < 4 := by
    rw [envelope_length]
    omega
  have htake : (envelope loader.hash (snapshotHeader 6) body).take 4 = snapshotHeader 6 := rfl
  have hdrop : (envelope loader.hash (snapshotHeader 6) body).drop 4 =
      leBytes 8 body.length ++ (loader.hash.digest body ++ body) := rfl
  unfold Loader.loadFromReader
  rw [if_neg hshort]
  rw [htake, if_pos rfl, hdrop]
  unfold Loader.loadVerified
  rw [openBody_ok hlen]

/-- The load of a saved file, up to the loop over its entries. -/
theorem load_saved {loader : Loader} {written : Nat → Instant} {entries : List DumpEntry}
    {journals : Journals} {file : Bytes} (hsave : loader.save written entries journals = .ok file)
    (hlength : file.length < 2 ^ 64) :
    ∃ tail, writeMany (saveEntry loader.crypto) (stamped written entries 0) = .ok tail ∧
      ∀ clock recovery, loader.loadFromReader clock recovery ⟨[], []⟩ file =
        loadBinary loader.dialect ⟨.present, true, recovery⟩ clock ⟨[], journals.checkpoints⟩
          tail := by
  obtain ⟨head, tail, hhead, htail, -, -, rfl⟩ := saveSnapshotBinary_ok hsave
  refine ⟨tail, htail, fun clock recovery => ?_⟩
  obtain ⟨hreadable, hnodup, hglobal, hcount⟩ := journals.readable
  have hread := reads_readWalCheckpoints hcount hreadable hnodup hglobal hhead tail
  rw [append_assoc] at hread
  rw [loadFromReader_saved hlength]
  unfold loadCheckpointed
  rw [hread]

end Lux
