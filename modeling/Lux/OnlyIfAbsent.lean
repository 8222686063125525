import Lux.ColdTier

/-!
# Commands that only write where nothing is

`SETNX`, `SET … NX`, `MSETNX`, `RENAMENX`, and `COPY` and `RESTORE` without `REPLACE` each look in
their own way whether there is something at their destination. `MSETNX` and `RENAMENX` look for a
string, and so overwrite every other type. `COPY` and `RESTORE` look under the name they are given
and store under the text of that name.
-/

namespace Lux.OnlyIfAbsent

open ByteCodec StdText KeyedList List

abbrev Data := List (Bytes × Entry)

/-- What the commands take from the rest of the server. -/
structure Env where
  lossy : Bytes → Str
  /-- `is_encrypted_value` -/
  isEncryptedValue : Bytes → Bool
  /-- `value_has_key_bound_encryption` -/
  keyBound : StoreValue → Bool

inductive Reply where
  | written
  | notWritten
  | error
  deriving DecidableEq

/-- The commands, with the stored form of what they write. A payload of `RESTORE` is decoded to a
value, or to none if its deadline has passed, or not at all. -/
inductive Command where
  | setnx (key value : Bytes)
  | setNx (key : Bytes) (entry : Entry)
  | msetnx (pairs : List (Bytes × Bytes))
  | renamenx (src dst : Bytes)
  | copy (src dst : Bytes)
  | restore (dst : Bytes) (payload : Option (Option Entry))

/-- What is left of the store, what is stored there, and the reply. -/
structure Outcome where
  base : Data
  stored : Data
  reply : Reply

def Outcome.data (o : Outcome) : Data := o.stored.foldl (fun data p => put data p.1 p.2) o.base

/-- The entry at a key, unless its deadline has passed. -/
def live (data : Data) (now : Instant) (key : Bytes) : Option Entry :=
  (data.lookup key).filter fun entry => !entry.isExpiredAt now

/-- `get`, which sees strings. -/
def get (data : Data) (now : Instant) (key : Bytes) : Option Bytes :=
  (live data now key).bind fun entry =>
    match entry.value with
    | .str value => some value
    | _ => none

section Commands

variable (env : Env) (now : Instant) (data : Data)

/-- `kv_string_is_encrypted`. -/
def isEncrypted (key : Bytes) : Bool := (get data now key).any env.isEncryptedValue

def setnx (key value : Bytes) : Outcome :=
  if isEncrypted env now data key then ⟨data, [], .error⟩
  else if (live data now key).isSome then ⟨data, [], .notWritten⟩
  else ⟨data, [(key, ⟨.str value, none⟩)], .written⟩

/-- `SET` with `NX`. -/
def setNx (key : Bytes) (entry : Entry) : Outcome :=
  if (live data now key).isSome then ⟨data, [], .notWritten⟩
  else ⟨data, [(key, entry)], .written⟩

/-- `msetnx_would_set`, and the loop of `msetnx`. -/
def msetnx (pairs : List (Bytes × Bytes)) : Outcome :=
  if pairs.any fun p => isEncrypted env now data p.1 then ⟨data, [], .error⟩
  else if pairs.all fun p => (get data now p.1).isNone then
    ⟨data, pairs.map fun p => (p.1, ⟨.str p.2, none⟩), .written⟩
  else ⟨data, [], .notWritten⟩

/-- `rename`. An entry whose deadline has passed is removed. -/
def rename (src dst : Bytes) : Outcome :=
  match live data now src with
  | none => ⟨erase data src, [], .error⟩
  | some entry =>
    if env.keyBound entry.value then ⟨data, [], .error⟩
    else ⟨erase data src, [(dst, entry)], .written⟩

def renamenx (src dst : Bytes) : Outcome :=
  if (get data now dst).isSome then ⟨data, [], .notWritten⟩ else rename env now data src dst

/-- The name under which `load_entry` stores. -/
def loadName (dst : Bytes) : Bytes := utf8 (keyString env.lossy dst)

/-- `copy_key`: the deadline is kept, the value goes through its form in a dump. -/
def copy (src dst : Bytes) : Outcome :=
  match live data now src with
  | none => ⟨data, [], .notWritten⟩
  | some entry =>
    if env.keyBound entry.value then ⟨data, [], .error⟩
    else if (live data now dst).isSome then ⟨data, [], .notWritten⟩
    else
      ⟨data, [(loadName env dst,
        { entry with value := loadValue now (storeValueToDumpValue entry.value) })], .written⟩

/-- `prepare_restore_key` and `apply_prepared_restore`. -/
def restore (dst : Bytes) (payload : Option (Option Entry)) : Outcome :=
  if (live data now dst).isSome then ⟨data, [], .error⟩
  else
    match payload with
    | none => ⟨data, [], .error⟩
    | some none => ⟨erase data dst, [], .written⟩
    | some (some entry) => ⟨erase data dst, [(loadName env dst, entry)], .written⟩

def run : Command → Outcome
  | .setnx key value => setnx env now data key value
  | .setNx key entry => setNx now data key entry
  | .msetnx pairs => msetnx env now data pairs
  | .renamenx src dst => renamenx env now data src dst
  | .copy src dst => copy env now data src dst
  | .restore dst payload => restore env now data dst payload

end Commands

/-- Where a command is to write. -/
def Command.destinations : Command → List Bytes
  | .setnx key _ => [key]
  | .setNx key _ => [key]
  | .msetnx pairs => pairs.map Prod.fst
  | .renamenx _ dst => [dst]
  | .copy _ dst => [dst]
  | .restore dst _ => [dst]

/-- The key that a rename takes away. -/
def Command.source : Command → Option Bytes
  | .renamenx src _ => some src
  | _ => none

/-- **Nothing that is there is touched**: under no live key something is stored, every live key but
the source of a rename has its entry, a live destination is reported, and `MSETNX` stores all its
pairs or none. -/
structure Spares (env : Env) (now : Instant) (data : Data) (c : Command) : Prop where
  stored : ∀ p ∈ (run env now data c).stored, live data now p.1 = none
  kept : ∀ key, key ∉ (run env now data c).stored.map Prod.fst → c.source ≠ some key →
    live data now key ≠ none → (run env now data c).data.lookup key = data.lookup key
  reported : (∃ dst ∈ c.destinations, live data now dst ≠ none) →
    (run env now data c).reply ≠ .written
  whole : ∀ pairs, c = .msetnx pairs → (run env now data c).data = data ∨
    ∀ p ∈ pairs, ∃ value, (p.1, value) ∈ pairs ∧
      (run env now data c).data.lookup p.1 = some ⟨.str value, none⟩

/-- What a command does not see: that a destination of `MSETNX` or `RENAMENX` holds something other
than a string, and that there is a key with the name under which `COPY` and `RESTORE` store. -/
def Sees (env : Env) (now : Instant) (data : Data) : Command → Prop
  | .setnx .. | .setNx .. => True
  | .msetnx pairs => (∃ p ∈ pairs, (get data now p.1).isSome = true) ∨
      ∀ p ∈ pairs, live data now p.1 = none
  | .renamenx src dst => live data now dst = none ∨ (get data now dst).isSome = true ∨
      (live data now src).all (fun entry => env.keyBound entry.value) = true
  | .copy src dst => live data now dst ≠ none ∨ live data now (loadName env dst) = none ∨
      (live data now src).all (fun entry => env.keyBound entry.value) = true
  | .restore dst payload => live data now dst ≠ none ∨ live data now (loadName env dst) = none ∨
      ∀ entry, payload ≠ some (some entry)

section Spared

variable {env : Env} {now : Instant} {data : Data}

/-- What is at a key afterwards: the last thing stored there, or what was left. -/
theorem lookup_foldl_put : ∀ (stored base : Data) (key : Bytes),
    (stored.foldl (fun data p => put data p.1 p.2) base).lookup key = base.lookup key ∧
        key ∉ stored.map Prod.fst ∨
      ∃ entry, (key, entry) ∈ stored ∧
        (stored.foldl (fun data p => put data p.1 p.2) base).lookup key = some entry := by
  intro stored
  induction stored with
  | nil => exact fun base key => .inl ⟨rfl, not_mem_nil⟩
  | cons p stored ih =>
    intro base key
    rcases ih (put base p.1 p.2) key with ⟨hsame, hkey⟩ | ⟨entry, hmem, hlookup⟩
    · by_cases heq : key = p.1
      · subst heq
        refine .inr ⟨p.2, mem_cons_self, ?_⟩
        rw [foldl_cons, hsame, lookup_put_self]
      · refine .inl ⟨?_, by simp [heq, hkey]⟩
        rw [foldl_cons, hsame, lookup_put_of_ne _ _ heq]
    · exact .inr ⟨entry, mem_cons_of_mem p hmem, hlookup⟩

/-- What is left of the store has every live key but the source. -/
theorem lookup_base (c : Command) {key : Bytes} (hsource : c.source ≠ some key)
    (hlive : live data now key ≠ none) :
    (run env now data c).base.lookup key = data.lookup key := by
  have herase : ∀ other, other ≠ key → (erase data other).lookup key = data.lookup key :=
    fun other hne => lookup_erase_of_ne _ (Ne.symm hne)
  cases c with
  | renamenx src dst =>
    have hne : src ≠ key := fun heq => hsource (congrArg some heq)
    simp only [run, renamenx, rename]
    cases live data now src with
    | none => split_ifs <;> simp [herase src hne]
    | some entry => dsimp only; split_ifs <;> simp [herase src hne]
  | restore dst payload =>
    simp only [run, restore]
    split_ifs with hdst
    · rfl
    · have hne : dst ≠ key := by
        rintro rfl
        simp [hlive] at hdst
      rcases payload with _ | _ | entry
      · rfl
      · exact herase dst hne
      · exact herase dst hne
  | setnx | setNx | msetnx | copy =>
    -- These take nothing away.
    simp only [run, setnx, setNx, msetnx, copy]
    repeat' split
    all_goals rfl

/-- `MSETNX` stores all its pairs or none. -/
theorem stored_msetnx (env : Env) (now : Instant) (data : Data) (pairs : List (Bytes × Bytes)) :
    (run env now data (.msetnx pairs)).base = data ∧
      ((run env now data (.msetnx pairs)).stored = [] ∨
        (run env now data (.msetnx pairs)).stored =
          pairs.map fun p => (p.1, ⟨.str p.2, none⟩)) := by
  simp only [run, msetnx]
  split_ifs <;> simp

/-- What remains to be seen for a command. -/
theorem spares_iff_stored (c : Command) : Spares env now data c ↔
    (∀ p ∈ (run env now data c).stored, live data now p.1 = none) ∧
      ((∃ dst ∈ c.destinations, live data now dst ≠ none) →
        (run env now data c).reply ≠ .written) := by
  refine ⟨fun h => ⟨h.stored, h.reported⟩, fun ⟨hstored, hreported⟩ => ⟨hstored, ?_, hreported, ?_⟩⟩
  · intro key hkey hsource hlive
    rcases lookup_foldl_put (run env now data c).stored (run env now data c).base key with
      ⟨hsame, -⟩ | ⟨entry, hmem, -⟩
    · exact hsame.trans (lookup_base c hsource hlive)
    · exact absurd (mem_map_of_mem hmem) hkey
  · rintro pairs rfl
    obtain ⟨hbase, hnone | hall⟩ := stored_msetnx env now data pairs
    · exact .inl (by rw [Outcome.data, hnone, hbase]; rfl)
    refine .inr fun p hp => ?_
    rcases lookup_foldl_put (run env now data (.msetnx pairs)).stored data p.1 with
      ⟨-, hkey⟩ | ⟨entry, hmem, hlookup⟩
    · refine absurd ?_ hkey
      rw [hall, map_map]
      exact mem_map.mpr ⟨p, hp, rfl⟩
    · rw [hall] at hmem
      obtain ⟨q, hq, heq⟩ := mem_map.mp hmem
      obtain ⟨hkey, hentry⟩ := Prod.mk.inj heq
      exact ⟨q.2, hkey ▸ hq, by rw [Outcome.data, hbase, hlookup, hentry]⟩

/-- **Only what is absent is written, if and only if** no destination of `MSETNX` or `RENAMENX`
holds something other than a string, and `COPY` and `RESTORE` do not store under the name of
another key. -/
theorem spares_iff (env : Env) (now : Instant) (data : Data) (c : Command) :
    Spares env now data c ↔ Sees env now data c := by
  rw [spares_iff_stored]
  cases c with
  | setnx key value =>
    simp only [run, setnx, Command.destinations, Sees]
    cases hlive : live data now key with
    | none => split_ifs <;> simp [hlive]
    | some entry => split_ifs <;> simp_all
  | setNx key entry =>
    simp only [run, setNx, Command.destinations, Sees]
    cases hlive : live data now key with
    | none => simp [hlive]
    | some held => simp
  | msetnx pairs =>
    simp only [run, msetnx, Sees]
    by_cases hstring : ∃ p ∈ pairs, (get data now p.1).isSome = true
    · have hall : (pairs.all fun p => (get data now p.1).isNone) = false := by
        obtain ⟨p, hp, hsome⟩ := hstring
        rw [all_eq_false]
        exact ⟨p, hp, by simpa [Option.isSome_iff_ne_none] using hsome⟩
      refine iff_of_true ?_ (.inl hstring)
      rw [hall, if_neg Bool.false_ne_true]
      split_ifs <;> simp
    have hnone : ∀ p ∈ pairs, get data now p.1 = none := by
      intro p hp
      by_contra hsome
      exact hstring ⟨p, hp, Option.isSome_iff_ne_none.mpr hsome⟩
    have hplain : (pairs.any fun p => isEncrypted env now data p.1) = false := by
      rw [any_eq_false]
      intro p hp
      simp [isEncrypted, hnone p hp]
    have hall : (pairs.all fun p => (get data now p.1).isNone) = true := by
      rw [all_eq_true]
      intro p hp
      simp [hnone p hp]
    rw [hplain, hall, or_iff_right hstring]
    constructor
    · rintro ⟨hstored, -⟩ p hp
      exact hstored _ (mem_map_of_mem hp)
    · intro hlive
      refine ⟨?_, ?_⟩
      · intro q hq
        obtain ⟨p, hp, rfl⟩ := mem_map.mp hq
        exact hlive p hp
      · rintro ⟨dst, hdst, hne⟩
        obtain ⟨p, hp, rfl⟩ := mem_map.mp hdst
        exact absurd (hlive p hp) hne
  | renamenx src dst =>
    simp only [run, renamenx, rename, Command.destinations, Sees]
    cases hsrc : live data now src with
    | none => split_ifs <;> simp
    | some entry =>
      dsimp only
      split_ifs <;> simp_all
  | copy src dst =>
    simp only [run, copy, Command.destinations, Sees]
    cases hsrc : live data now src with
    | none => simp
    | some entry =>
      dsimp only
      split_ifs <;> simp_all [Option.isSome_iff_ne_none]
  | restore dst payload =>
    simp only [run, restore, Command.destinations, Sees]
    rcases payload with _ | _ | entry <;> split_ifs <;> simp_all [Option.isSome_iff_ne_none]

/-- A list and a name that is not UTF-8. -/
def exampleData : Data := [([1], ⟨.list [[5]], none⟩), ([2], ⟨.str [6], none⟩)]

def exampleEnv : Env := ⟨fun _ => [Char.ofNat 1], fun _ => false, fun _ => false⟩

/-- `MSETNX` and `RENAMENX` overwrite a list and say so, and `COPY` to a name that is not UTF-8
overwrites the key with the text of that name. -/
theorem list_overwritten :
    (run exampleEnv 0 exampleData (.msetnx [([1], [7])])).data =
        [([1], ⟨.str [7], none⟩), ([2], ⟨.str [6], none⟩)] ∧
      (run exampleEnv 0 exampleData (.renamenx [2] [1])).data = [([1], ⟨.str [6], none⟩)] ∧
      (run exampleEnv 0 exampleData (.copy [2] [255])).data =
        [([1], ⟨.str [6], none⟩), ([2], ⟨.str [6], none⟩)] := by
  refine ⟨rfl, rfl, rfl⟩

end Spared

end Lux.OnlyIfAbsent
