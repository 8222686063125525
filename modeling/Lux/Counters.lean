import Lux.HashFields
import Lux.StringTypes

/-!
# Integer counters

A counter is a string or the field of a hash that holds an integer. `INCRBY` and `DECRBY` have
two implementations, the general one and one that works on a locked shard; `shardIncrFast_eq` says
that they are the same function. Its addition is checked, and `DECRBY` negates its argument before
that, unchecked. The addition of `HINCRBY` is not checked at all, and the deadline of its field is
gone before the value is read.

`counters_exact_iff` says for which arguments and entries each command is exact or refused.
-/

namespace Lux.Counters

open ByteCodec StdText KeyedList Machine64 Hashes Strings
open Strings hiding Env Reply live
open BitField (parseInteger integerErr)

/-- A 64-bit argument and a text of it. -/
structure Argument where
  text : Bytes
  value : Int64
  reads : parseInteger text = some value

/-- A stored text of an integer in range is read as that integer. -/
theorem storedInteger_showInt {n : Int} (hmin : minValue ≤ n) (hmax : n ≤ maxValue) :
    storedInteger (utf8 (showInt n)) = some n := by
  unfold maxValue at hmax
  rw [storedInteger, fromUtf8?_utf8]
  exact parseI64_showInt hmin (by omega)

theorem storedInteger_bounds {bytes : Bytes} {n : Int} (h : storedInteger bytes = some n) :
    minValue ≤ n ∧ n ≤ maxValue := by
  obtain ⟨text, -, h⟩ := Option.bind_eq_some_iff.mp h
  unfold parseI64 at h
  generalize signed text = parts at h
  obtain ⟨neg, body⟩ := parts
  simp only [Option.ite_none_left_eq_some] at h
  cases hdigits : digits? body with
  | none => simp [hdigits] at h
  | some value =>
    simp only [hdigits, Option.ite_none_right_eq_some, Option.some.injEq] at h
    unfold minValue maxValue
    omega

theorem checkedAdd_eq_some {a b : Int} (hmin : minValue ≤ a + b) (hmax : a + b ≤ maxValue) :
    checkedAdd a b = some (a + b) := if_pos ⟨hmin, hmax⟩

theorem checkedAdd_eq_none {a b : Int} (h : ¬ (minValue ≤ a + b ∧ a + b ≤ maxValue)) :
    checkedAdd a b = none := if_neg h

/-! ## Counters in strings -/

section InStrings

variable (env : Strings.Env) (slot : Option Strings.Cell) (now : Instant) (delta : Int64)

/-- The integer a counter stands at; a missing one stands at zero. -/
def standing : Option Int :=
  match Strings.live slot now with
  | none => some 0
  | some cell => cell.value.stringBytes.bind storedInteger

/-- The exact result is stored and returned, or there is an error and the entry is what it was. -/
def ExactOrRefused (out : Option Strings.Cell × Strings.Reply) (amount : Int) : Prop :=
  (∃ current, standing slot now = some current ∧ out.2 = .integer (current + amount) ∧
    (getRaw out.1 now).bind storedInteger = some (current + amount)) ∨
  (∃ message, out.2 = .error message) ∧ out.1 = slot

/-- The entry that a counter is written to keeps the deadline of the live one. -/
def counted (n : Int) : Option Strings.Cell :=
  some ⟨.shared (utf8 (showInt n)), (Strings.live slot now).bind (·.expiresAt)⟩

/-- `shard_incr_fast`. -/
def shardIncrFast : Option Strings.Cell × Strings.Reply :=
  let insert (current : Int) (expiresAt : Option Instant) : Option Strings.Cell × Strings.Reply :=
    match checkedAdd current delta.toInt with
    | some n => (some ⟨.shared (utf8 (showInt n)), expiresAt⟩, .integer n)
    | none => (slot, .error overflowErr)
  match slot with
  | none => insert 0 none
  | some cell =>
    if cell.isExpiredAt now then insert 0 none
    else
      match cell.value.stringBytes with
      | none => (slot, .error wrongType)
      | some bytes =>
        match storedInteger bytes with
        | none => (slot, .error integerErr)
        | some current => insert current cell.expiresAt

/-- `INCRBY` and `DECRBY` on a locked shard, given what they do to their argument. -/
def shardIncrStep (step : Int64 → Int64) (arg : Bytes) : Option Strings.Cell × Strings.Reply :=
  match parseInteger arg with
  | some delta => shardIncrFast slot now (step delta)
  | none => (slot, .error integerErr)

def shardIncrby (arg : Bytes) : Option Strings.Cell × Strings.Reply :=
  shardIncrStep slot now id arg

def shardDecrby (arg : Bytes) : Option Strings.Cell × Strings.Reply :=
  shardIncrStep slot now (-·) arg

/-- **The path on a locked shard computes what the general one does.** -/
theorem shardIncrFast_eq : shardIncrFast slot now delta = replied (incr slot now delta) := by
  unfold shardIncrFast incr
  cases slot with
  | none =>
    simp only [Strings.live]
    cases checkedAdd 0 delta.toInt <;> rfl
  | some cell =>
    cases hexp : cell.isExpiredAt now with
    | true =>
      simp only [Strings.live, Option.filter_some, hexp, Bool.not_true, if_true]
      cases checkedAdd 0 delta.toInt <;> rfl
    | false =>
      simp only [Strings.live, Option.filter_some, hexp, Bool.not_false, Bool.false_eq_true,
        if_false, if_true]
      cases cell.value.stringBytes with
      | none => rfl
      | some bytes =>
        cases hint : storedInteger bytes with
        | none => simp only [hint, replied]
        | some current =>
          simp only [hint]
          cases checkedAdd current delta.toInt <;> rfl

variable {slot now delta}

/-- What holds no integer is refused. -/
theorem incr_of_standing_none (delta : Int64) (h : standing slot now = none) :
    ∃ message, incr slot now delta = (slot, .error message) := by
  unfold standing at h
  unfold incr
  cases hlive : live slot now with
  | none => simp [hlive] at h
  | some cell =>
    simp only [hlive] at h ⊢
    cases hbytes : cell.value.stringBytes with
    | none => exact ⟨wrongType, rfl⟩
    | some bytes =>
      simp only [hbytes, Option.bind_some] at h
      simp only [h]
      exact ⟨integerErr, rfl⟩

/-- What holds an integer is counted on, unless the sum leaves the range. -/
theorem incr_of_standing {current : Int} (h : standing slot now = some current) :
    incr slot now delta = (checkedAdd current delta.toInt).elim (slot, .error overflowErr)
      fun n => (counted slot now n, .ok n) := by
  unfold standing at h
  unfold incr counted
  cases hlive : live slot now with
  | none =>
    simp only [hlive, Option.some.injEq] at h ⊢
    subst h
    cases checkedAdd 0 delta.toInt <;> rfl
  | some cell =>
    simp only [hlive] at h ⊢
    obtain ⟨bytes, hbytes, hint⟩ := Option.bind_eq_some_iff.mp h
    simp only [hbytes, hint]
    cases checkedAdd current delta.toInt <;> rfl

theorem standing_le {current : Int} (h : standing slot now = some current) :
    current ≤ maxValue := by
  unfold standing at h
  cases hlive : live slot now with
  | none =>
    simp only [hlive, Option.some.injEq] at h
    subst h
    decide
  | some cell =>
    simp only [hlive] at h
    obtain ⟨bytes, -, hint⟩ := Option.bind_eq_some_iff.mp h
    exact (storedInteger_bounds hint).2

theorem getRaw_of_due {cell : Strings.Cell} (h : cell.isExpiredAt now = false) :
    getRaw (some cell) now = cell.value.stringBytes := by
  simp [getRaw, Strings.live, Option.filter_some, h]

/-- A counter that was written is read back. -/
theorem getRaw_counted (n : Int) : getRaw (counted slot now n) now = some (utf8 (showInt n)) := by
  refine getRaw_of_due ?_
  cases hlive : live slot now with
  | none => rfl
  | some cell =>
    have h := (Option.filter_eq_some_iff.mp hlive).2
    rwa [Bool.not_eq_true'] at h

/-- **Checked addition is exact or refused.** -/
theorem exactOrRefused_incr :
    ExactOrRefused slot now (replied (incr slot now delta)) delta.toInt := by
  cases hstanding : standing slot now with
  | none =>
    obtain ⟨message, hrefused⟩ := incr_of_standing_none delta hstanding
    rw [hrefused]
    exact .inr ⟨⟨message, rfl⟩, rfl⟩
  | some current =>
    rw [incr_of_standing hstanding]
    by_cases hfits : minValue ≤ current + delta.toInt ∧ current + delta.toInt ≤ maxValue
    · rw [checkedAdd_eq_some hfits.1 hfits.2]
      refine .inl ⟨current, hstanding, rfl, ?_⟩
      change (getRaw (counted slot now _) now).bind storedInteger = _
      rw [getRaw_counted, Option.bind_some, storedInteger_showInt hfits.1 hfits.2]
    · rw [checkedAdd_eq_none hfits]
      exact .inr ⟨⟨overflowErr, rfl⟩, rfl⟩

theorem exactOrRefused_error {message : String} {amount : Int} :
    ExactOrRefused slot now (slot, .error message) amount := .inr ⟨⟨message, rfl⟩, rfl⟩

/-- Negation is exact but at the lower end of the range. -/
theorem toInt_neg_of_ne (h : delta ≠ Int64.minValue) : (-delta).toInt = -delta.toInt := by
  have hne : delta.toInt ≠ minValue := fun heq => h (Int64.toInt_inj.mp heq)
  have hmin := minValue_le delta
  have hmax := le_maxValue delta
  unfold minValue at hne hmin
  unfold maxValue at hmax
  rw [Int64.toInt_neg]
  exact Int.bmod_eq_of_le (by omega) (by omega)

/-- The decrement whose negation is not exact is exact or refused only if the counter stands below
zero, where it is refused. -/
theorem exactOrRefused_decr_iff :
    ExactOrRefused slot now (replied (incr slot now (-delta))) (-delta.toInt) ↔
      (delta = Int64.minValue → ∀ current ∈ standing slot now, current < 0) := by
  by_cases hdelta : delta = Int64.minValue
  · subst hdelta
    have hneg : (-Int64.minValue).toInt = minValue := rfl
    cases hstanding : standing slot now with
    | none =>
      obtain ⟨message, hrefused⟩ := incr_of_standing_none (-Int64.minValue) hstanding
      rw [hrefused]
      exact iff_of_true exactOrRefused_error (fun _ current h => absurd h (Option.not_mem_none _))
    | some current =>
      rw [incr_of_standing hstanding, hneg]
      by_cases hlow : current < 0
      · have hover : ¬ (minValue ≤ current + minValue ∧ current + minValue ≤ maxValue) := by
          omega
        rw [checkedAdd_eq_none hover]
        refine iff_of_true exactOrRefused_error fun _ n hn => ?_
        cases hn
        exact hlow
      have hmax : current + minValue ≤ maxValue := by
        have hbound := standing_le hstanding
        unfold minValue
        omega
      rw [checkedAdd_eq_some (by omega) hmax]
      refine iff_of_false ?_ fun h => hlow (h rfl current rfl)
      intro hexactOr
      rcases hexactOr with ⟨n, hn, hreply, -⟩ | ⟨⟨message, herror⟩, -⟩
      · rw [hstanding, Option.some.injEq] at hn
        subst hn
        have hsum : current + minValue = current + 2 ^ 63 := Strings.Reply.integer.inj hreply
        unfold minValue at hsum
        omega
      · cases herror
  · rw [← toInt_neg_of_ne hdelta]
    exact iff_of_true exactOrRefused_incr fun h => absurd h hdelta

end InStrings

/-! ## Counters in hashes -/

section InHashes

open Hashes (keyStr hincrbyMap cmdHincrby hgetFromShard hashIntegerErr)

/-- An entry, or none, whose value is one that commands build. -/
abbrev Slot := { slot : Option Entry // ∀ entry ∈ slot, entry.value.Valid }

variable (env : Hashes.Env) (slot : Option Entry) (now : Instant) (nowMs : Int64) (field : Bytes)
  (delta : Int64)

/-- The deadline of a live field. -/
def fieldDeadline : Option Int64 :=
  Hashes.reading slot now none none fun map =>
    if map.fieldExpired (keyStr field) nowMs then none else map.expiries.lookup (keyStr field)

def keyDeadline : Option Instant := (Hashes.live slot now).bind (·.expiresAt)

/-- The integer that a value is counted on from. -/
def countedFrom : Option Bytes → Option Int
  | none => some 0
  | some value => storedInteger value

/-- The exact result is stored and returned, or there is an error, and the value and the deadlines
are what they were. -/
def FieldExactOrRefused (out : Option Entry × Hashes.Reply) (amount : Int) : Prop :=
  (∃ current, countedFrom (hgetFromShard slot now nowMs field) = some current ∧
    out.2 = .integer (current + amount) ∧
    (hgetFromShard out.1 now nowMs field).bind storedInteger = some (current + amount)) ∨
  (∃ message, out.2 = .error message) ∧
    hgetFromShard out.1 now nowMs field = hgetFromShard slot now nowMs field ∧
    fieldDeadline out.1 now nowMs field = fieldDeadline slot now nowMs field ∧
    keyDeadline out.1 now = keyDeadline slot now

/-- The sum fits; a value that is no integer has no deadline to lose; a field that is not there
has a name it is found under again. -/
def MapFits (map : HashData) : Prop :=
  match map.getLive (keyStr field) nowMs with
  | none => fromUtf8? field ≠ none
  | some value =>
    match storedInteger value with
    | none => map.expiries.lookup (keyStr field) = none
    | some current => minValue ≤ current + delta.toInt ∧ current + delta.toInt ≤ maxValue

def FieldFits : Prop :=
  Hashes.reading slot now (fromUtf8? field ≠ none) True (MapFits nowMs field delta)

/-- The property of one hash. -/
def MapExactOrRefused (map : HashData) (out : HashData × Hashes.Reply) (amount : Int) : Prop :=
  (∃ current, countedFrom (map.getLive (keyStr field) nowMs) = some current ∧
    out.2 = .integer (current + amount) ∧
    (out.1.getLive (keyStr field) nowMs).bind storedInteger = some (current + amount)) ∨
  (∃ message, out.2 = .error message) ∧
    out.1.getLive (keyStr field) nowMs = map.getLive (keyStr field) nowMs ∧
    (if out.1.fieldExpired (keyStr field) nowMs then none
      else out.1.expiries.lookup (keyStr field)) =
      if map.fieldExpired (keyStr field) nowMs then none else map.expiries.lookup (keyStr field)

variable {env slot now nowMs field delta} {out : HashData × Hashes.Reply} {map : HashData}

theorem getLive_eq_some {name : Str} {value : Bytes}
    (h : map.getLive name nowMs = some value) :
    map.fieldExpired name nowMs = false ∧ map.fields.lookup name = some value := by
  unfold HashData.getLive at h
  split at h
  · cases h
  · rename_i hlive
    exact ⟨Bool.eq_false_iff.mpr hlive, h⟩

/-- Behind the removal of its deadline a field is live. -/
theorem getLive_erase (fields : List (Str × Bytes)) (expiries : List (Str × Int64)) (name : Str) :
    HashData.getLive ⟨fields, erase expiries name⟩ name nowMs = fields.lookup name := by
  simp [HashData.getLive, HashData.fieldExpired, lookup_erase_self]

theorem keyString_of_utf8 {lossy : Bytes → Str} (h : fromUtf8? field ≠ none) :
    keyString lossy field = keyStr field := by
  obtain ⟨name, hname⟩ := Option.ne_none_iff_exists'.mp h
  simp [keyString, keyStr, hname]

/-- **One `HINCRBY` on a hash.** -/
theorem mapExactOrRefused_hincrbyMap_iff
    (hdistinct : (map.expiries.map Prod.fst).Nodup) :
    MapExactOrRefused nowMs field map (hincrbyMap env nowMs field delta map) delta.toInt ↔
      MapFits nowMs field delta map := by
  have hlookup : (map.purgeExpired nowMs).fields.lookup (keyStr field) =
      map.getLive (keyStr field) nowMs := HashData.lookup_fields_purge hdistinct (keyStr field)
  unfold MapFits MapExactOrRefused hincrbyMap hincrbyPurged
  simp only [hlookup]
  cases hvalue : map.getLive (keyStr field) nowMs with
  | none =>
    have hdelta := storedInteger_showInt (minValue_le delta) (le_maxValue delta)
    by_cases hname : fromUtf8? field = none
    · -- The field is written under another name than it is read.
      have hread : keyStr field = [] := by simp [keyStr, hname]
      have hwritten : keyString env.lossy field = env.lossy field := by simp [keyString, hname]
      have hne : keyStr field ≠ keyString env.lossy field := by
        rw [hread, hwritten]
        exact (env.lossy_ne_nil field hname).symm
      refine iff_of_false ?_ fun h => h hname
      intro h
      rcases h with ⟨current, -, -, hstored⟩ | ⟨⟨message, herror⟩, -⟩
      · rw [getLive_erase, lookup_put_of_ne _ _ hne, hlookup, hvalue] at hstored
        cases hstored
      · cases herror
    · refine iff_of_true (.inl ⟨0, rfl, ?_, ?_⟩) hname
      · simp
      · rw [keyString_of_utf8 hname, getLive_erase, lookup_put_self, Option.bind_some, hdelta,
          Int.zero_add]
  | some value =>
    obtain ⟨hlive, hheld⟩ := getLive_eq_some hvalue
    cases hint : storedInteger value with
    | none =>
      simp only [hint, countedFrom, reduceCtorEq, false_and, exists_const, false_or, hlive,
        if_false, getLive_erase, hlookup, hvalue, lookup_erase_self,
        ite_self, true_and]
      constructor
      · exact fun h => h.2.symm
      · exact fun h => ⟨⟨hashIntegerErr, rfl⟩, h.symm⟩
    | some current =>
      simp only [hint, countedFrom, Option.some.injEq]
      rw [← wrap_eq_iff]
      constructor
      · intro h
        rcases h with ⟨n, rfl, hreply, -⟩ | ⟨⟨message, herror⟩, -⟩
        · exact Hashes.Reply.integer.inj hreply
        · cases herror
      · intro hfits
        have hrange := wrap_eq_iff.mp hfits
        refine .inl ⟨current, rfl, by rw [hfits], ?_⟩
        rw [getLive_erase, lookup_put_self, hfits, Option.bind_some,
          storedInteger_showInt hrange.1 hrange.2]

/-- The property of an entry that holds the changed hash is that of the hash. -/
theorem fieldExactOrRefused_hash_iff {entry : Entry}
    {amount : Int} (hlive : live slot now = some entry)
    (hvalue : entry.value = .hash map) :
    FieldExactOrRefused slot now nowMs field
        (some { entry with value := .hash out.1 }, out.2) amount ↔
      MapExactOrRefused nowMs field map out amount := by
  have hdue : entry.isExpiredAt now = false := due_of_live hlive
  have hafter : live (some { entry with value := .hash out.1 }) now =
      some { entry with value := .hash out.1 } := live_of_due hdue
  simp only [FieldExactOrRefused, MapExactOrRefused, hgetFromShard, fieldDeadline, keyDeadline,
    reading_hash hlive hvalue, reading_hash hafter rfl, hlive, hafter,
    Option.bind_some, and_true]

/-- The same where there was no entry. -/
theorem fieldExactOrRefused_absent_iff {amount : Int}
    (hlive : live slot now = none) :
    FieldExactOrRefused slot now nowMs field (some ⟨.hash out.1, none⟩, out.2) amount ↔
      MapExactOrRefused nowMs field .empty out amount := by
  have hafter : live (some ⟨.hash out.1, none⟩) now = some ⟨.hash out.1, none⟩ :=
    live_of_due rfl
  simp only [FieldExactOrRefused, MapExactOrRefused, hgetFromShard, fieldDeadline, keyDeadline,
    reading_absent hlive, hlive, hafter,
    Option.bind_some, Option.bind_none, and_true]
  rfl

/-- **One `HINCRBY` on an entry.** -/
theorem fieldExactOrRefused_cmdHincrby_iff (hvalid : ∀ entry ∈ slot, entry.value.Valid) :
    FieldExactOrRefused slot now nowMs field (cmdHincrby env slot now nowMs field delta)
        delta.toInt ↔
      FieldFits slot now nowMs field delta := by
  unfold cmdHincrby FieldFits
  cases hlive : live slot now with
  | none =>
    have hempty : (HashData.empty.expiries.map Prod.fst).Nodup := List.nodup_nil
    rw [upserting_absent hlive, reading_absent hlive,
      fieldExactOrRefused_absent_iff hlive, mapExactOrRefused_hincrbyMap_iff hempty]
    rfl
  | some entry =>
    by_cases hhash : ∃ map, entry.value = .hash map
    · obtain ⟨map, hvalue⟩ := hhash
      have hslot : entry.value.Valid := hvalid entry (slot_of_live hlive)
      rw [hvalue] at hslot
      rw [upserting_hash hlive hvalue, reading_hash hlive hvalue,
        fieldExactOrRefused_hash_iff hlive hvalue, mapExactOrRefused_hincrbyMap_iff hslot.2]
    · have hother : ∀ map, entry.value ≠ .hash map := fun map h => hhash ⟨map, h⟩
      rw [upserting_other hlive hother]
      refine iff_of_true (.inr ⟨⟨wrongType, rfl⟩, rfl, rfl, rfl⟩) ?_
      rw [reading, hlive]
      cases hentry : entry.value with
      | hash map => exact absurd hentry (hother map)
      | _ => simp

end InHashes

/-! ## The commands -/

/-- A decrement is not exactly negated only at the end of the range, and refused there if the
counter stands below zero. -/
def DecrementFits (slot : Option Strings.Cell) (now : Instant) (delta : Int64) : Prop :=
  delta = Int64.minValue → ∀ current ∈ standing slot now, current < 0

theorem cmdIncrStep_eq (env : Strings.Env) (slot : Option Strings.Cell) (now : Instant)
    (name : String) (step : Int64 → Int64) (arg : Argument) :
    cmdIncrStep env slot now name step [arg.text] =
      if kvStringIsEncrypted env slot now then (slot, .error encryptedMutationErr)
      else replied (incr slot now (step arg.value)) := by
  simp only [cmdIncrStep, arg.reads]

/-- **Where counters are exact or refused.**  `INCRBY` always is. `DECRBY` is unless the argument
is the least integer and the counter is not below zero. `HINCRBY` is where the sum fits, provided
that a value that is no integer has no deadline and that a new field has a name in UTF-8. -/
theorem counters_exact_iff (env : Strings.Env) (slot : Option Strings.Cell) (now : Instant)
    (arg : Argument) (hashEnv : Hashes.Env) (hashSlot : Slot) (nowMs : Int64) (field : Bytes) :
    ExactOrRefused slot now (cmdIncrby env slot now [arg.text]) arg.value.toInt ∧
      (ExactOrRefused slot now (cmdDecrby env slot now [arg.text]) (-arg.value.toInt) ↔
        kvStringIsEncrypted env slot now = true ∨ DecrementFits slot now arg.value) ∧
      ExactOrRefused slot now (shardIncrby slot now arg.text) arg.value.toInt ∧
      (ExactOrRefused slot now (shardDecrby slot now arg.text) (-arg.value.toInt) ↔
        DecrementFits slot now arg.value) ∧
      (FieldExactOrRefused hashSlot now nowMs field
          (cmdHincrby hashEnv hashSlot now nowMs field arg.value) arg.value.toInt ↔
        FieldFits hashSlot now nowMs field arg.value) := by
  refine ⟨?_, ?_, ?_, ?_, fieldExactOrRefused_cmdHincrby_iff hashSlot.2⟩
  · rw [cmdIncrby, cmdIncrStep_eq]
    split
    · exact exactOrRefused_error
    · exact exactOrRefused_incr
  · rw [cmdDecrby, cmdIncrStep_eq]
    split
    · rename_i hencrypted
      exact iff_of_true exactOrRefused_error (.inl hencrypted)
    · rename_i hplain
      rw [exactOrRefused_decr_iff]
      exact (or_iff_right hplain).symm
  · simp only [shardIncrby, shardIncrStep, arg.reads, shardIncrFast_eq]
    exact exactOrRefused_incr
  · simp only [shardDecrby, shardIncrStep, arg.reads, shardIncrFast_eq]
    exact exactOrRefused_decr_iff

def five : Option Strings.Cell := some ⟨.shared (utf8 (str "5")), none⟩

/-- A hash with the greatest integer in one field and a word with a deadline in another. -/
def full : Option Entry :=
  some ⟨.hash ⟨[(str "n", utf8 (str "9223372036854775807")), (str "w", utf8 (str "word"))],
    [(str "w", 100)]⟩, none⟩

def fullSlot : Slot := ⟨full, by
  rintro entry ⟨⟩
  exact ⟨by decide, by decide +kernel⟩⟩

/-- Minus one is taken from `5` and added to the greatest integer exactly. -/
theorem counters_exact_minus_one :
    ExactOrRefused five 0 (cmdDecrby plainEnv five 0 [utf8 (str "-1")]) 1 ∧
      FieldExactOrRefused full 0 7 (utf8 (str "n"))
        (cmdHincrby plainEnv full 0 7 (utf8 (str "n")) (-1)) (-1) := by
  obtain ⟨-, hdecr, -, -, hhincr⟩ := counters_exact_iff plainEnv five 0
    ⟨utf8 (str "-1"), -1, by decide⟩ plainEnv fullSlot 7 (utf8 (str "n"))
  refine ⟨hdecr.2 (.inr ?_), hhincr.2 ?_⟩
  · intro hleast
    cases hleast
  · show minValue ≤ _ ∧ _ ≤ maxValue
    decide

/-- Taking the least integer from `5` gives a negative number, one more than the greatest integer
is the least, a refused `HINCRBY` drops a deadline, and counting under a name that is not UTF-8
counts nothing. -/
theorem counters_wrap :
    cmdDecrby plainEnv five 0 [utf8 (str "-9223372036854775808")] =
        (some ⟨.shared (utf8 (str "-9223372036854775803")), none⟩,
          .integer (-9223372036854775803)) ∧
      ¬ ExactOrRefused five 0 (cmdDecrby plainEnv five 0 [utf8 (str "-9223372036854775808")])
        9223372036854775808 ∧
      (cmdHincrby plainEnv full 0 7 (utf8 (str "n")) 1).2 =
        .integer (-9223372036854775808) ∧
      ¬ FieldExactOrRefused full 0 7 (utf8 (str "n"))
        (cmdHincrby plainEnv full 0 7 (utf8 (str "n")) 1) 1 ∧
      ¬ FieldExactOrRefused full 0 7 (utf8 (str "w"))
        (cmdHincrby plainEnv full 0 7 (utf8 (str "w")) 1) 1 ∧
      ¬ FieldExactOrRefused full 0 7 [255]
        (cmdHincrby plainEnv full 0 7 [255] 1) 1 := by
  have hdecr : cmdDecrby plainEnv five 0 [utf8 (str "-9223372036854775808")] =
      (some ⟨.shared (utf8 (str "-9223372036854775803")), none⟩,
        .integer (-9223372036854775803)) := by decide
  have hcount : (cmdHincrby plainEnv full 0 7 (utf8 (str "n")) 1).2 =
      .integer (-9223372036854775808) := by decide
  refine ⟨hdecr, ?_, hcount, ?_, ?_, ?_⟩
  · intro h
    rcases h with ⟨current, hcurrent, hreply, -⟩ | ⟨⟨message, herror⟩, -⟩
    · have hfive : standing five 0 = some 5 := by decide
      rw [hfive, Option.some.injEq] at hcurrent
      subst hcurrent
      cases hreply
    · cases herror
  · intro h
    rcases h with ⟨current, hcurrent, hreply, -⟩ | ⟨⟨message, herror⟩, -⟩
    · have hmax : countedFrom (hgetFromShard full 0 7 (utf8 (str "n"))) =
          some 9223372036854775807 := by decide
      rw [hmax, Option.some.injEq] at hcurrent
      subst hcurrent
      cases hreply
    · cases herror
  · intro h
    rcases h with ⟨current, hcurrent, -⟩ | ⟨-, -, hdeadline, -⟩
    · cases hcurrent
    · revert hdeadline
      decide
  · intro h
    rcases h with ⟨current, -, -, hstored⟩ | ⟨⟨message, herror⟩, -⟩
    · cases hstored
    · cases herror

end Lux.Counters
