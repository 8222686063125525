import Lux.HashFields
import Lux.Runs

/-!
# Hash fields with deadlines

A field of a hash may have a deadline. What that is for is said by the model in `Eager`: a hash
is its live fields, each with its deadline if it has one; when the clock advances, the fields whose
deadline passes are gone; a hash without fields is no hash; and no command looks at a deadline but
those that are about deadlines.

The server leaves a field where it is when its deadline passes, so each command has to look past
such fields by itself. `agrees_execute` says that a command does so under the condition `Looks`,
which names the commands that do not, and `behaves_eagerly` carries it over to runs.
-/

namespace Lux.HashExpiry

open ByteCodec StdText KeyedList HashData Hashes
open List hiding interleave isEmpty
open Strings (storedInteger)

abbrev Fields := List (Str × HashData.Field)

/-! ## Fields that go when their deadline passes -/

namespace Eager

variable (env : Env) (nowMs : Int64)

/-- The fields that are left at a time. -/
def expire (later : Int64) (fields : Fields) : Fields :=
  fields.filter fun p => !(p.2.deadline.any fun deadline => deadline ≤ later)

/-- A plain write: the field has no deadline afterwards. -/
def setPair (fields : Fields) (pair : Bytes × Bytes) : Fields × Bool :=
  let name := keyString env.lossy pair.1
  (put fields name ⟨pair.2, none⟩, (fields.lookup name).isNone)

def hset (isHmset encrypted : Bool) (nonce : Nat) (pairs : List (Bytes × Bytes))
    (fields : Fields) : Fields × Reply :=
  match storedPairs env encrypted nonce (fun name => (fields.lookup name).map (·.value)) pairs with
  | .error message => (fields, .error message)
  | .ok stored =>
    let (fields, added) := stored.thread (setPair env) fields
    (fields, if isHmset then .ok else .integer (added.count true))

def hsetnx (field value : Bytes) (fields : Fields) : Fields × Reply :=
  if (fields.lookup (keyStr field)).isSome then (fields, .integer 0)
  else (put fields (keyStr field) ⟨value, none⟩, .integer 1)

/-- The field is gone, and whether it was there. -/
def deleteField (fields : Fields) (field : Bytes) : Fields × Bool :=
  (erase fields (keyStr field), (fields.lookup (keyStr field)).isSome)

/-- An increment drops the deadline of its field, also when it is refused. -/
def hincrby (field : Bytes) (delta : Int64) (fields : Fields) : Fields × Reply :=
  match fields.lookup (keyStr field) with
  | some held =>
    match storedInteger held.value with
    | none => (put fields (keyStr field) { held with deadline := none }, .error hashIntegerErr)
    | some current =>
      let sum := Machine64.wrap (current + delta.toInt)
      (put fields (keyStr field) ⟨utf8 (showInt sum), none⟩, .integer sum)
  | none =>
    let name := keyString env.lossy field
    (put fields name ⟨utf8 (showInt delta.toInt), (fields.lookup name).bind (·.deadline)⟩,
      .integer delta.toInt)

/-- An increment by a float keeps the deadline of its field. -/
def hincrbyfloat (field : Bytes) (delta : F64) (fields : Fields) : Fields × Reply :=
  let insert (current : F64) (deadline : Option Int64) : Fields × Reply :=
    let text := utf8 (showF64 (current.add delta))
    (put fields (keyStr field) ⟨text, deadline⟩, .bulk (some text))
  match fields.lookup (keyStr field) with
  | none => insert (Float.Model.ofBits 0) none
  | some held =>
    match storedDouble held.value with
    | none => (fields, .error hashFloatErr)
    | some current => insert current held.deadline

/-- A deadline is set if the condition allows it; one that has passed deletes the field. -/
def expireField (deadline : Int64) (cond : ExpireCond) (fields : Fields) (field : Bytes) :
    Fields × Int :=
  match fields.lookup (keyStr field) with
  | none => (fields, -2)
  | some held =>
    if !cond.allows deadline held.deadline then (fields, 0)
    else if deadline ≤ nowMs then (erase fields (keyStr field), 2)
    else (put fields (keyStr field) { held with deadline := some deadline }, 1)

def persistField (fields : Fields) (field : Bytes) : Fields × Int :=
  match fields.lookup (keyStr field) with
  | none => (fields, -2)
  | some held =>
    if held.deadline.isSome then (put fields (keyStr field) { held with deadline := none }, 1)
    else (fields, -1)

def getdelField (fields : Fields) (field : Bytes) : Fields × Option Bytes :=
  (erase fields (keyStr field),
    decrypted env field ((fields.lookup (keyStr field)).map (·.value)))

/-- The value, with the deadline of the field changed. -/
def getexField (ttl : GetexTtl) (fields : Fields) (field : Bytes) : Fields × Option Bytes :=
  match fields.lookup (keyStr field) with
  | none => (fields, none)
  | some held =>
    let value := decrypted env field (some held.value)
    if value.isNone then (fields, value)
    else
      match ttl with
      | .keep => (fields, value)
      | .persist => (put fields (keyStr field) { held with deadline := none }, value)
      | .set unit amount =>
        if unit.deadline nowMs amount ≤ nowMs then (erase fields (keyStr field), value)
        else
          (put fields (keyStr field)
            { held with deadline := some (unit.deadline nowMs amount) }, value)

/-- A command on the fields of a hash. -/
def execute (fields : Fields) : Hashes.Command → Fields × Reply
  | .hset isHmset encrypted nonce first more =>
    hset env isHmset encrypted nonce (first :: more) fields
  | .hsetnx field value => hsetnx field value fields
  | .hget field => (fields, hgetReply env field ((fields.lookup (keyStr field)).map (·.value)))
  | .hmget names => (fields, .bulks (names.map fun field =>
    decrypted env field ((fields.lookup (keyStr field)).map (·.value))))
  | .hdel names =>
    let (fields, removed) := names.thread deleteField fields
    (fields, .integer (removed.count true))
  | .hgetall => (fields, hgetallReply env (pairs fields))
  | .hkeys => (fields, bulksOf (fields.map fun p => utf8 p.1))
  | .hvals => (fields, hvalsReply env (pairs fields))
  | .hlen => (fields, .integer fields.length)
  | .hexists field => (fields, .integer (fields.lookup (keyStr field)).isSome.toNat)
  | .hincrby field delta => hincrby env field delta fields
  | .hincrbyfloat field delta => hincrbyfloat field delta fields
  | .hstrlen field =>
    (fields, .integer ((fields.lookup (keyStr field)).elim 0 fun held => held.value.length))
  | .hrandfield count withValues seed =>
    (fields, match count.elim (.ok 0) fun count => absCount count withValues with
      | .error message => .error message
      | .ok _ =>
        if fields = [] then (if count.isNone then .bulk none else .bulks [])
        else hrandfieldReply (pairs fields) count withValues seed)
  | .hscan cursor count pattern novalues =>
    (fields, hscanReply env (pairs fields) cursor count pattern novalues)
  | .hexpire unit ttl cond names =>
    let (fields, results) :=
      names.thread (expireField nowMs (unit.deadline nowMs ttl) cond) fields
    (fields, .integers results)
  | .httl form names => (fields, .integers (names.map fun field =>
    (fields.lookup (keyStr field)).elim (-2) fun held =>
      held.deadline.elim (-1) (form.report nowMs)))
  | .hpersist names =>
    let (fields, results) := names.thread persistField fields
    (fields, .integers results)
  | .hgetdel names =>
    let (fields, values) := names.thread (getdelField env) fields
    (fields, .bulks values)
  | .hgetex ttl names =>
    let (fields, values) := names.thread (getexField env nowMs ttl) fields
    (fields, .bulks values)
  | .exists => (fields, .integer (decide (fields ≠ [])).toNat)
  | .type => (fields, .simple (if fields = [] then "none" else "hash"))

end Eager

open Eager

/-! ## What is kept -/

/-- A pass over a list relates what its steps relate. -/
theorem thread_simulates {σ τ α β : Type} {step : σ → α → σ × β} {step' : τ → α → τ × β}
    {R : σ → τ → Prop} {l : List α}
    (hstep : ∀ s t, ∀ a ∈ l, R s t → R (step s a).1 (step' t a).1 ∧ (step s a).2 = (step' t a).2) :
    ∀ {s t}, R s t →
      R (l.thread step s).1 (l.thread step' t).1 ∧
        (l.thread step s).2 = (l.thread step' t).2 := by
  induction l with
  | nil => exact fun h => ⟨h, rfl⟩
  | cons a l ih =>
    intro s t h
    obtain ⟨hnext, hout⟩ := hstep s t a mem_cons_self h
    obtain ⟨hend, houts⟩ := ih (fun s t b hb => hstep s t b (mem_cons_of_mem a hb)) hnext
    refine ⟨hend, ?_⟩
    change (step s a).2 :: (l.thread step (step s a).1).2 =
      (step' t a).2 :: (l.thread step' (step' t a).1).2
    rw [hout, houts]

/-- A pass whose steps change nothing. -/
theorem thread_const {σ α β : Type} {step : σ → α → σ × β} {s : σ} {b : α → β}
    (hstep : ∀ a, step s a = (s, b a)) (l : List α) : l.thread step s = (s, l.map b) := by
  induction l with
  | nil => rfl
  | cons a l ih => simp only [thread, hstep, ih, map_cons]

/-- What every step keeps, a threaded list keeps. -/
theorem thread_keeps {σ α β : Type} {step : σ → α → σ × β} {P : σ → Prop}
    (hstep : ∀ s a, P s → P (step s a).1) (l : List α) : ∀ {s}, P s → P (l.thread step s).1 := by
  induction l with
  | nil => exact fun h => h
  | cons a l ih => exact fun h => ih (hstep _ a h)

variable {env : Env} {nowMs : Int64} {now : Instant}

/-- A hash without a passed deadline, and its view. -/
structure Purged (nowMs : Int64) (map : HashData) (fields : Fields) : Prop where
  sound : map.Sound
  live : ∀ name, map.fieldExpired name nowMs = false
  view : map.view nowMs = fields

theorem purged_purge {map : HashData} (h : map.Sound) :
    Purged nowMs (map.purgeExpired nowMs) (map.view nowMs) :=
  ⟨h.purge, fieldExpired_purge h.expiries, view_purge h.expiries⟩

/-- A step that keeps the passed deadlines out, and what it returns, are what they are to be. -/
def Follows {β : Type} (nowMs : Int64) (out : HashData × β) (want : Fields × β) : Prop :=
  Purged nowMs out.1 want.1 ∧ out.2 = want.2

/-- A changed hash and a reply are what they are to be. -/
structure Matches (nowMs : Int64) (out : HashData × Reply) (want : Fields × Reply) : Prop where
  sound : out.1.Sound
  view : out.1.view nowMs = want.1
  reply : out.2 = want.2

section Steps

variable {map : HashData} {fields : Fields} (h : Purged nowMs map fields)
include h

/-- A purged hash holds each field of the view, with its deadline. -/
theorem Purged.lookup (name : Str) : fields.lookup name =
    (map.fields.lookup name).map fun value => ⟨value, map.expiries.lookup name⟩ := by
  rw [← h.view, lookup_view_of_live (h.live name)]

/-- A name has no field in either, or one field in both. -/
theorem Purged.held (name : Str) :
    (map.fields.lookup name = none ∧ fields.lookup name = none) ∨
      ∃ value, map.fields.lookup name = some value ∧
        fields.lookup name = some ⟨value, map.expiries.lookup name⟩ := by
  rw [h.lookup]
  cases map.fields.lookup name with
  | none => exact .inl ⟨rfl, rfl⟩
  | some value => exact .inr ⟨value, rfl, rfl⟩

theorem Purged.eq_nil_iff : fields = [] ↔ map.fields = [] := by
  rw [← h.view, HashData.view, map_eq_nil_iff, HashData.liveIter, filter_eq_nil_iff]
  constructor
  · intro hall
    rw [eq_nil_iff_forall_not_mem]
    intro p hp
    exact hall p hp (by rw [h.live]; rfl)
  · intro hnil p hp
    rw [hnil] at hp
    cases hp

variable {name : Str}

/-- No deadline of a purged hash has passed. -/
theorem Purged.due {deadline : Int64} (hdeadline : deadline ∈ map.expiries.lookup name) :
    nowMs < deadline := by
  rw [← Int64.not_le]
  intro hpassed
  have hexpired := fieldExpired_iff.mpr ⟨deadline, hdeadline, hpassed⟩
  rw [h.live name] at hexpired
  cases hexpired

theorem Purged.lookup_deadline (name : Str) :
    (fields.lookup name).bind (·.deadline) = map.expiries.lookup name := by
  rw [h.lookup]
  cases hheld : map.fields.lookup name with
  | none => exact (h.sound.lookup_expiries_none hheld).symm
  | some value => rfl

/-- A field is written, and the deadlines change at most in its own. -/
theorem Purged.update {expiries : List (Str × Int64)} (name : Str) (value : Bytes)
    (hdistinct : (expiries.map Prod.fst).Nodup)
    (howned : ∀ p ∈ expiries, p.1 = name ∨ p ∈ map.expiries)
    (hother : ∀ other, other ≠ name → expiries.lookup other = map.expiries.lookup other)
    (hdue : ∀ deadline ∈ expiries.lookup name, nowMs < deadline) :
    Purged nowMs ⟨put map.fields name value, expiries⟩
      (put fields name ⟨value, expiries.lookup name⟩) := by
  have hlive : ∀ other, HashData.fieldExpired ⟨put map.fields name value, expiries⟩ other nowMs =
      false := by
    intro other
    rw [← Bool.not_eq_true, fieldExpired_iff]
    intro ⟨deadline, hlookup, hpassed⟩
    by_cases hname : other = name
    · subst hname
      exact absurd hpassed (Int64.not_le.mpr (hdue deadline hlookup))
    · rw [hother other hname] at hlookup
      exact absurd hpassed (Int64.not_le.mpr (h.due hlookup))
  refine ⟨h.sound.put name value hdistinct howned, hlive, ?_⟩
  rw [view_update rfl hother (h.live name) (hlive name), h.view]

/-- A field is written and its deadline is dropped. -/
theorem Purged.overwrite (name : Str) (value : Bytes) :
    Purged nowMs (map.overwrite name value) (put fields name ⟨value, none⟩) := by
  have hupdate := h.update name value (nodup_erase h.sound.expiries name)
    (fun p hp => .inr (mem_of_mem_filter hp)) (fun other hne => lookup_erase_of_ne _ hne)
    (fun deadline hdeadline => by rw [lookup_erase_self] at hdeadline; cases hdeadline)
  rwa [lookup_erase_self] at hupdate

/-- A removal keeps the two in step. -/
theorem Purged.removeField (name : Str) :
    Purged nowMs (map.removeField name) (erase fields name) where
  sound := h.sound.removeField name
  live other := by
    rw [← Bool.not_eq_true, fieldExpired_iff]
    intro ⟨deadline, hlookup, hpassed⟩
    by_cases hname : other = name
    · rw [HashData.removeField, hname, lookup_erase_self] at hlookup
      cases hlookup
    · rw [HashData.removeField, lookup_erase_of_ne _ hname] at hlookup
      exact absurd hpassed (Int64.not_le.mpr (h.due hlookup))
  view := by rw [view_removeField, h.view]

/-- The deadline of a field that is there is set. -/
theorem Purged.setDeadline {value : Bytes} (hheld : map.fields.lookup name = some value)
    {deadline : Int64} (hdue : nowMs < deadline) :
    Purged nowMs { map with expiries := put map.expiries name deadline }
      (put fields name ⟨value, some deadline⟩) := by
  have hupdate := h.update name value
    (nodup_put h.sound.expiries name deadline)
    (fun p hp => (mem_put hp).imp_left fun heq => by rw [heq])
    (fun other hne => lookup_put_of_ne _ _ hne)
    (fun d hd => by rw [lookup_put_self, Option.mem_some] at hd; rwa [← hd])
  rwa [lookup_put_self, put_eq_self h.sound.fields hheld] at hupdate

/-- The deadline of a field that is there is dropped. -/
theorem Purged.clearDeadline {value : Bytes}
    (hheld : map.fields.lookup name = some value) :
    Purged nowMs { map with expiries := erase map.expiries name }
      (put fields name ⟨value, none⟩) := by
  have hover := h.overwrite name value
  rwa [HashData.overwrite, put_eq_self h.sound.fields hheld] at hover

theorem Purged.hsetPair (env : Env) (pair : Bytes × Bytes) :
    Follows nowMs (Hashes.hsetPair env map pair) (setPair env fields pair) := by
  refine ⟨h.overwrite _ _, ?_⟩
  simp only [Hashes.hsetPair, setPair, h.lookup, Option.isNone_map]

/-- One field of `HEXPIRE`, by the cases of the condition. -/
theorem Purged.hexpireField (deadline : Int64) (cond : ExpireCond) (field : Bytes) :
    Follows nowMs (hexpireField nowMs deadline cond map field)
      (expireField nowMs deadline cond fields field) := by
  unfold Hashes.hexpireField expireField
  rcases h.held (keyStr field) with ⟨hheld, hlookup⟩ | ⟨value, hheld, hlookup⟩
  · simp only [hlookup, hheld, Option.isNone_none, if_true]
    exact ⟨h, rfl⟩
  · simp only [hlookup, hheld, Option.isNone_some, Bool.false_eq_true, if_false]
    split
    · exact ⟨h, rfl⟩
    · split
      · exact ⟨h.removeField _, rfl⟩
      · rename_i hdue
        exact ⟨h.setDeadline hheld (Int64.not_le.mp hdue), rfl⟩

theorem Purged.hpersistField (field : Bytes) :
    Follows nowMs (hpersistField map field) (persistField fields field) := by
  unfold Hashes.hpersistField persistField
  rcases h.held (keyStr field) with ⟨hheld, hlookup⟩ | ⟨value, hheld, hlookup⟩
  · simp only [hlookup, hheld, Option.isNone_none, if_true]
    exact ⟨h, rfl⟩
  · simp only [hlookup, hheld, Option.isNone_some, Bool.false_eq_true, if_false]
    split
    · exact ⟨h.clearDeadline hheld, rfl⟩
    · exact ⟨h, rfl⟩

theorem Purged.lookup_value (name : Str) :
    (fields.lookup name).map (·.value) = map.fields.lookup name := by
  rw [h.lookup, Option.map_map]
  exact Option.map_id'

theorem Purged.hgetdelField (env : Env) (field : Bytes) :
    Follows nowMs (hgetdelField env map field) (getdelField env fields field) := by
  refine ⟨h.removeField _, ?_⟩
  rw [Hashes.hgetdelField, getdelField, h.lookup_value]

theorem Purged.hgetexField (env : Env) (ttl : GetexTtl) (field : Bytes) :
    Follows nowMs (hgetexField env nowMs ttl map field)
      (getexField env nowMs ttl fields field) := by
  unfold Hashes.hgetexField getexField
  rcases h.held (keyStr field) with ⟨hheld, hlookup⟩ | ⟨value, hheld, hlookup⟩
  · simp only [hlookup, hheld, decrypted, Option.bind_none, Option.isNone_none, if_true]
    exact ⟨h, rfl⟩
  · simp only [hlookup, hheld]
    split
    · exact ⟨h, rfl⟩
    cases ttl with
    | keep => exact ⟨h, rfl⟩
    | persist => exact ⟨h.clearDeadline hheld, rfl⟩
    | set unit amount =>
      dsimp only
      split
      · exact ⟨h.removeField _, rfl⟩
      · rename_i hdue
        exact ⟨h.setDeadline hheld (Int64.not_le.mp hdue), rfl⟩

/-- The deadline of a field is dropped before its value is read, and stays dropped. -/
theorem Purged.hincrby (env : Env) (field : Bytes) (delta : Int64) :
    Matches nowMs (hincrbyPurged env field delta map) (hincrby env field delta fields) := by
  unfold hincrbyPurged Eager.hincrby
  rcases h.held (keyStr field) with ⟨hheld, hlookup⟩ | ⟨value, hheld, hlookup⟩
  · simp only [hlookup, hheld]
    -- A field that is not there has no deadline, so nothing is dropped.
    have hsame : ∀ other, (erase map.expiries (keyStr field)).lookup other =
        map.expiries.lookup other := by
      intro other
      by_cases hother : other = keyStr field
      · rw [hother, lookup_erase_self, h.sound.lookup_expiries_none hheld]
      · exact lookup_erase_of_ne _ hother
    have hupdate := h.update (keyString env.lossy field) (utf8 (showInt delta.toInt))
      (nodup_erase h.sound.expiries (keyStr field))
      (fun p hp => .inr (mem_of_mem_filter hp)) (fun other _ => hsame other)
      (fun deadline hdeadline => by
        rw [hsame] at hdeadline
        exact h.due hdeadline)
    refine ⟨hupdate.sound, ?_, rfl⟩
    rw [hupdate.view, hsame, h.lookup_deadline]
  · simp only [hlookup, hheld]
    cases storedInteger value with
    | none =>
      have hcleared := h.clearDeadline hheld
      exact ⟨hcleared.sound, hcleared.view, rfl⟩
    | some current =>
      have hover := h.overwrite (keyStr field)
        (utf8 (showInt (Machine64.wrap (current + delta.toInt))))
      exact ⟨hover.sound, hover.view, rfl⟩

end Steps

/-! ## One command on a hash -/

section Bodies

variable {map : HashData} (h : map.Sound)
include h

/-- The body of a command that purges first and then passes over its arguments. -/
theorem matches_thread {α β : Type} {step : HashData → α → HashData × β}
    {step' : Fields → α → Fields × β}
    (hstep : ∀ map fields a, Purged nowMs map fields → Follows nowMs (step map a) (step' fields a))
    (l : List α) (reply : List β → Reply) :
    Matches nowMs
        ((l.thread step (map.purgeExpired nowMs)).1,
          reply (l.thread step (map.purgeExpired nowMs)).2)
        ((l.thread step' (map.view nowMs)).1, reply (l.thread step' (map.view nowMs)).2) ∧
      (isEmpty (l.thread step (map.purgeExpired nowMs)).1 = true ↔
        (l.thread step' (map.view nowMs)).1 = []) := by
  obtain ⟨hend, hout⟩ := thread_simulates (R := Purged nowMs)
    (fun map fields a _ hp => hstep map fields a hp) (purged_purge h)
  refine ⟨⟨hend.sound, hend.view, by rw [hout]⟩, ?_⟩
  rw [hend.eq_nil_iff, isEmpty, List.isEmpty_iff]

/-- `HSETNX` does not purge, so the field itself must not be expired. -/
theorem matches_hsetnx {field : Bytes} (hlive : map.fieldExpired (keyStr field) nowMs = false)
    (value : Bytes) :
    Matches nowMs (hsetnxMap field value map) (hsetnx field value (map.view nowMs)) := by
  have hlookup := lookup_view_of_live hlive
  unfold hsetnxMap hsetnx
  rw [hlookup]
  cases hheld : map.fields.lookup (keyStr field) with
  | some old => exact ⟨h, rfl, rfl⟩
  | none =>
    refine ⟨h.put _ value h.expiries fun p hp => .inr hp, ?_, rfl⟩
    have hview : HashData.view { map with fields := put map.fields (keyStr field) value } nowMs =
        put (map.view nowMs) (keyStr field) ⟨value, map.expiries.lookup (keyStr field)⟩ :=
      view_update rfl (fun _ _ => rfl) hlive hlive
    rwa [h.lookup_expiries_none hheld] at hview

theorem matches_hincrbyfloat {field : Bytes}
    (hlive : map.fieldExpired (keyStr field) nowMs = false) (delta : F64) :
    Matches nowMs (hincrbyfloatMap field delta map)
      (hincrbyfloat field delta (map.view nowMs)) := by
  have hlookup := lookup_view_of_live hlive
  have hwritten : ∀ text, Matches nowMs
      ({ map with fields := put map.fields (keyStr field) text }, .bulk (some text))
      (put (map.view nowMs) (keyStr field) ⟨text, map.expiries.lookup (keyStr field)⟩,
        .bulk (some text)) := fun text =>
    ⟨h.put _ text h.expiries fun p hp => .inr hp, view_update rfl (fun _ _ => rfl) hlive hlive, rfl⟩
  unfold hincrbyfloatMap hincrbyfloat
  cases hheld : map.fields.lookup (keyStr field) with
  | none =>
    rw [hheld] at hlookup
    simp only [hlookup]
    rw [← h.lookup_expiries_none hheld]
    exact hwritten _
  | some value =>
    rw [hheld] at hlookup
    simp only [hlookup, Option.map_some]
    cases storedDouble value with
    | none => exact ⟨h, rfl, rfl⟩
    | some current => exact hwritten _

end Bodies

section Deletions

variable {map : HashData}

/-- A hash with its view, whether or not deadlines have passed in it. -/
def Seen (nowMs : Int64) (map : HashData) (fields : Fields) : Prop :=
  map.Sound ∧ map.view nowMs = fields

theorem seen_hdelField {fields : Fields} (hseen : Seen nowMs map fields) (field : Bytes) :
    Seen nowMs (hdelField nowMs map field).1 (deleteField fields field).1 ∧
      (hdelField nowMs map field).2 = (deleteField fields field).2 := by
  obtain ⟨hsound, rfl⟩ := hseen
  refine ⟨⟨hsound.removeField _, view_removeField _⟩, ?_⟩
  rw [hdelField, deleteField, lookup_view, getLive]
  cases map.fieldExpired (keyStr field) nowMs <;> simp

/-- `HDEL` counts the live fields it removes. -/
theorem matches_hdel (h : map.Sound) (names : List Bytes) :
    Matches nowMs (hdelMap nowMs names map)
      ((names.thread deleteField (map.view nowMs)).1,
        .integer ((names.thread deleteField (map.view nowMs)).2.count true)) := by
  obtain ⟨⟨hsound, hview⟩, hout⟩ := thread_simulates (R := Seen nowMs)
    (fun map fields a _ hseen => seen_hdelField hseen a) (l := names) ⟨h, rfl⟩
  refine ⟨hsound, hview, ?_⟩
  rw [← hout]
  rfl

theorem hdelMap_fst (names : List Bytes) : ∀ map : HashData,
    (hdelMap nowMs names map).1 = (names.map keyStr).foldl HashData.removeField map := by
  induction names with
  | nil => exact fun _ => rfl
  | cons name names ih => exact fun map => ih _

/-- Either a live field is not named, or every field is. -/
def Outlives (nowMs : Int64) (names : List Bytes) (map : HashData) : Prop :=
  (∃ p ∈ map.liveIter nowMs, p.1 ∉ names.map keyStr) ∨ ∀ p ∈ map.fields, p.1 ∈ names.map keyStr

/-- Then the key goes with its last live field. -/
theorem isEmpty_hdelMap_iff {names : List Bytes} (houtlives : Outlives nowMs names map) :
    isEmpty (hdelMap nowMs names map).1 = true ↔ (hdelMap nowMs names map).1.view nowMs = [] := by
  rw [hdelMap_fst, foldl_removeField, isEmpty, List.isEmpty_iff]
  rcases houtlives with ⟨p, hp, hnot⟩ | hall
  · obtain ⟨hmem, hlive⟩ := mem_filter.mp hp
    have hkept : p ∈ map.fields.filter fun p => !(names.map keyStr).contains p.1 :=
      mem_filter.mpr ⟨hmem, by simpa using hnot⟩
    refine iff_of_false (ne_nil_of_mem hkept) ?_
    intro hnil
    rw [HashData.view, map_eq_nil_iff, HashData.liveIter, filter_eq_nil_iff] at hnil
    refine hnil p hkept ?_
    have hdeadline : (map.expiries.filter fun p => !(names.map keyStr).contains p.1).lookup p.1 =
        map.expiries.lookup p.1 := by
      rw [lookup_filter_key fun name => !(names.map keyStr).contains name, if_pos]
      simpa using hnot
    rw [fieldExpired, hdeadline]
    exact hlive
  · have hnone : (map.fields.filter fun p => !(names.map keyStr).contains p.1) = [] := by
      rw [filter_eq_nil_iff]
      intro p hp
      simpa using hall p hp
    refine iff_of_true hnone ?_
    rw [HashData.view, hnone]
    rfl

end Deletions

/-! ## One command on an entry -/

/-- The hash in an entry. -/
def hashOf : Option Entry → HashData
  | some ⟨.hash map, _⟩ => map
  | _ => .empty

/-- The entry under a key and the fields it stands for: none, or at least one that is live. -/
inductive Standing (nowMs : Int64) : Option Entry → Fields → Prop
  | absent : Standing nowMs none []
  | present {map : HashData} (sound : map.Sound) (live : map.view nowMs ≠ []) :
      Standing nowMs (some ⟨.hash map, none⟩) (map.view nowMs)

/-- The entry and the reply are what they are to be. -/
def Agrees (nowMs : Int64) (out : Option Entry × Reply) (want : Fields × Reply) : Prop :=
  Standing nowMs out.1 want.1 ∧ out.2 = want.2

/-- A hash whose key has no deadline is live. -/
theorem live_hash (map : HashData) (now : Instant) :
    live (some ⟨.hash map, none⟩) now = some ⟨.hash map, none⟩ := live_of_due rfl

section Kinds

variable {slot : Option Entry} {fields : Fields} (h : Standing nowMs slot fields)
include h

theorem Standing.sound : (hashOf slot).Sound := by
  cases h with
  | absent => exact sound_empty
  | present sound _ => exact sound

theorem Standing.view_eq : (hashOf slot).view nowMs = fields := by
  cases h <;> rfl

/-- A key is reported absent when no field is live. -/
theorem Standing.cmdExists_iff :
    cmdExists slot now = .integer 0 ↔ (hashOf slot).liveIter nowMs = [] := by
  cases h with
  | absent => exact iff_of_true rfl rfl
  | present sound live =>
    refine iff_of_false ?_ fun hnil => live (map_eq_nil_iff.mpr hnil)
    simp [cmdExists, live_hash]

/-- A command that reads agrees if its reply does, at a missing key and at a hash. -/
theorem agrees_reading {absent wrong : Reply} {body : HashData → Reply} {reply : Reply}
    (habsent : fields = [] → absent = reply)
    (hbody : fields ≠ [] → body (hashOf slot) = reply) :
    Agrees nowMs (slot, reading slot now absent wrong body) (fields, reply) := by
  refine ⟨h, ?_⟩
  cases h with
  | absent => rw [← habsent rfl, reading_absent rfl]
  | present sound live =>
    rw [← hbody live]
    rfl

variable {body : HashData → HashData × Reply} {want : Fields × Reply}

/-- A command that makes the key agrees if it leaves something. -/
theorem agrees_upserting
    (hmatches : Matches nowMs (body (hashOf slot)) want) (hne : want.1 ≠ []) :
    Agrees nowMs (upserting slot now body) want := by
  have hout : upserting slot now body =
      (some ⟨.hash (body (hashOf slot)).1, none⟩, (body (hashOf slot)).2) := by
    cases h with
    | absent => exact upserting_absent rfl
    | present sound live => exact upserting_hash (live_hash _ now) rfl
  rw [hout]
  obtain ⟨hsound, hview, hreply⟩ := hmatches
  refine ⟨?_, hreply⟩
  rw [← hview] at hne ⊢
  exact .present hsound hne

/-- A command that may drop the key has to drop it when nothing is left. -/
theorem agrees_changing {absent : Reply}
    {drops : HashData → Bool}
    (habsent : fields = [] → want = ([], absent))
    (hmatches : Matches nowMs (body (hashOf slot)) want)
    (hdrops : fields ≠ [] → (drops (body (hashOf slot)).1 = true ↔ want.1 = [])) :
    Agrees nowMs (changing slot now absent body drops) want := by
  cases h with
  | absent =>
    rw [habsent rfl]
    exact ⟨.absent, rfl⟩
  | @present map sound live =>
    have hout : changing (some ⟨.hash map, none⟩) now absent body drops =
        (if drops (body map).1 then none else some ⟨.hash (body map).1, none⟩, (body map).2) := by
      simp only [changing, live_hash]
    have hkey : drops (body map).1 = true ↔ want.1 = [] := hdrops live
    obtain ⟨hsound, hview, hreply⟩ : Matches nowMs (body map) want := hmatches
    rw [hout]
    refine ⟨?_, hreply⟩
    by_cases hempty : want.1 = []
    · rw [if_pos (hkey.mpr hempty), hempty]
      exact .absent
    · rw [if_neg fun hdrop => hempty (hkey.mp hdrop)]
      rw [← hview] at hempty ⊢
      exact .present hsound hempty

end Kinds

/-- What a command does not look past by itself: `HSETNX` and `HINCRBYFLOAT` a field whose deadline
has passed, `HSTRLEN` the value of one, `HSET` that one was encrypted, and `HDEL` that nothing but
such fields is left behind. -/
def Looks (env : Env) (nowMs : Int64) (map : HashData) : Hashes.Command → Prop
  | .hset _ encrypted _ first more => encrypted = true ∨ ∀ p ∈ first :: more,
      map.fieldExpired (keyStr p.1) nowMs = true →
        (map.fields.lookup (keyStr p.1)).any env.isEncryptedValue = false
  | .hsetnx field _ => map.fieldExpired (keyStr field) nowMs = false
  | .hincrbyfloat field _ => map.fieldExpired (keyStr field) nowMs = false
  | .hstrlen field => map.fieldExpired (keyStr field) nowMs = true →
      map.fields.lookup (keyStr field) = none ∨ map.fields.lookup (keyStr field) = some []
  | .hdel names => Outlives nowMs names map
  | _ => True

instance (env : Env) (nowMs : Int64) (map : HashData) :
    ∀ c : Hashes.Command, Decidable (Looks env nowMs map c)
  | .hset .. | .hdel _ => inferInstanceAs (Decidable (_ ∨ _))
  | .hsetnx .. | .hincrbyfloat .. => inferInstanceAs (Decidable (_ = false))
  | .hstrlen _ => inferInstanceAs (Decidable (_ = true → _))
  | .hget _ | .hmget _ | .hgetall | .hkeys | .hvals | .hlen | .hexists _ | .hincrby _ _
  | .hrandfield .. | .hscan .. | .hexpire .. | .httl .. | .hpersist _ | .hgetdel _ | .hgetex ..
  | .exists | .type => inferInstanceAs (Decidable True)

section Commands

variable {slot : Option Entry} {fields : Fields} (h : Standing nowMs slot fields)
include h

/-- The value of a live field. -/
theorem Standing.lookup_value (name : Str) :
    (fields.lookup name).map (·.value) = (hashOf slot).getLive name nowMs := by
  rw [← h.view_eq, lookup_view, Option.map_map]
  exact Option.map_id'

theorem Standing.pairs_eq : pairs fields = (hashOf slot).liveIter nowMs := by
  rw [← h.view_eq, pairs_view]

omit h in
theorem storedPairs_congr {encrypted : Bool} {nonce : Nat} {held held' : Str → Option Bytes}
    {pairs : List (Bytes × Bytes)}
    (hsame : ∀ p ∈ pairs, encrypted = true ∨
      (held (keyStr p.1)).any env.isEncryptedValue =
        (held' (keyStr p.1)).any env.isEncryptedValue) :
    storedPairs env encrypted nonce held pairs = storedPairs env encrypted nonce held' pairs := by
  unfold storedPairs
  induction pairs with
  | nil => rfl
  | cons p pairs ih =>
    have hflag : (encrypted || (held (keyStr p.1)).any env.isEncryptedValue) =
        (encrypted || (held' (keyStr p.1)).any env.isEncryptedValue) := by
      rcases hsame p mem_cons_self with hencrypted | heq
      · rw [hencrypted, Bool.true_or, Bool.true_or]
      · rw [heq]
    rw [mapM_cons, mapM_cons, ih fun q hq => hsame q (mem_cons_of_mem p hq), hflag]

variable {more : List (Bytes × Bytes)} {isHmset encrypted : Bool} {first : Bytes × Bytes}
  {field : Bytes}

/-- What `HSET` stores depends on the live fields alone, or everything is encrypted anyway. -/
theorem prepareHset_eq {nonce : Nat}
    (hlooks : Looks env nowMs (hashOf slot) (.hset isHmset encrypted nonce first more)) :
    prepareHset env slot now encrypted nonce (first :: more) =
      storedPairs env encrypted nonce (fun name => (fields.lookup name).map (·.value))
        (first :: more) := by
  have hsame : storedPairs env encrypted nonce (fun name => (hashOf slot).fields.lookup name)
      (first :: more) = storedPairs env encrypted nonce
        (fun name => (fields.lookup name).map (·.value)) (first :: more) := by
    refine storedPairs_congr fun p hp => ?_
    rcases hlooks with hencrypted | hnone
    · exact .inl hencrypted
    refine .inr ?_
    rw [h.lookup_value, getLive]
    cases hexpired : (hashOf slot).fieldExpired (keyStr p.1) nowMs with
    | false => rfl
    | true => exact hnone p hp hexpired
  rw [← hsame]
  cases h with
  | absent => exact reading_absent rfl
  | present sound live => exact reading_hash (live_hash _ now) rfl

/-- `HSET` and `HMSET`, unless an expired field that was encrypted decides how the value is kept. -/
theorem agrees_hset {nonce : Nat}
    (hlooks : Looks env nowMs (hashOf slot) (.hset isHmset encrypted nonce first more)) :
    Agrees nowMs (cmdHset env slot now nowMs isHmset encrypted nonce (first :: more))
      (hset env isHmset encrypted nonce (first :: more) fields) := by
  unfold cmdHset hset
  rw [prepareHset_eq h hlooks]
  cases hstored : storedPairs env encrypted nonce (fun name => (fields.lookup name).map (·.value))
      (first :: more) with
  | error message => exact ⟨h, rfl⟩
  | ok stored =>
    obtain ⟨hbody, -⟩ := matches_thread h.sound
      (fun map fields pair (hp : Purged nowMs map fields) => hp.hsetPair env pair) stored
      (fun added => if isHmset then .ok else .integer (added.count true))
    rw [h.view_eq] at hbody
    refine agrees_upserting h hbody ?_
    -- At least one pair was stored.
    have hpairs := forall₂_of_mapM_eq_ok hstored
    cases hpairs with
    | @cons _ pair _ rest _ _ =>
      exact thread_keeps (P := fun fields : Fields => fields ≠ [])
        (fun fields pair _ => put_ne_nil _ _ _) rest (put_ne_nil _ _ _)

/-- The commands that purge first and pass over the fields they name. -/
theorem agrees_thread {β : Type} {step : HashData → Bytes → HashData × β}
    {step' : Fields → Bytes → Fields × β} {missing : β} (reply : List β → Reply)
    {drops : HashData → Bool} {names : List Bytes}
    (hstep : ∀ map fields a, Purged nowMs map fields → Follows nowMs (step map a) (step' fields a))
    (hmissing : ∀ a, step' [] a = ([], missing))
    (hdrops : fields ≠ [] → drops = isEmpty ∨
      (∀ map, drops map = false) ∧ (names.thread step' fields).1 ≠ []) :
    Agrees nowMs
      (changing slot now (reply (names.map fun _ => missing))
        (fun map => ((names.thread step (map.purgeExpired nowMs)).1,
          reply (names.thread step (map.purgeExpired nowMs)).2)) drops)
      ((names.thread step' fields).1, reply (names.thread step' fields).2) := by
  obtain ⟨hbody, hempty⟩ := matches_thread h.sound hstep names reply
  rw [h.view_eq] at hbody hempty
  refine agrees_changing h ?_ hbody fun hne => ?_
  · intro hnil
    rw [hnil, thread_const hmissing]
  · obtain rfl | ⟨hnever, hleft⟩ := hdrops hne
    · exact hempty
    · exact iff_of_false (by simp [hnever]) hleft

theorem agrees_hpersist (names : List Bytes) :
    Agrees nowMs (cmdHpersist slot now nowMs names)
      ((names.thread persistField fields).1,
        .integers (names.thread persistField fields).2) := by
  refine agrees_thread h .integers (fun map fields field hp => hp.hpersistField field)
    (fun _ => rfl) fun hfields => .inr ⟨fun _ => rfl, ?_⟩
  -- A field that loses its deadline is still there, so the key need not be dropped.
  refine thread_keeps (P := fun fields : Fields => fields ≠ []) (fun fields name hne => ?_) names
    hfields
  unfold persistField
  cases fields.lookup (keyStr name) with
  | none => exact hne
  | some held =>
    dsimp only
    split
    · exact put_ne_nil _ _ _
    · exact hne

/-- `HDEL` drops the key with its last field. -/
theorem agrees_hdel {names : List Bytes} (hlooks : Looks env nowMs (hashOf slot) (.hdel names)) :
    Agrees nowMs (cmdHdel slot now nowMs names)
      ((names.thread deleteField fields).1,
        .integer ((names.thread deleteField fields).2.count true)) := by
  have hbody : Matches nowMs (hdelMap nowMs names (hashOf slot)) _ := matches_hdel h.sound names
  have hempty := isEmpty_hdelMap_iff hlooks
  rw [hbody.view] at hempty
  rw [h.view_eq] at hbody hempty
  have hmissing : names.thread deleteField [] = ([], names.map fun _ => false) := by
    apply thread_const
    exact fun _ => rfl
  refine agrees_changing h ?_ hbody fun _ => hempty
  intro hnil
  simp [hnil, hmissing, count_replicate]

theorem agrees_hincrby (env : Env) (field : Bytes) (delta : Int64) :
    Agrees nowMs (cmdHincrby env slot now nowMs field delta)
      (hincrby env field delta fields) := by
  have hpurged : Purged nowMs ((hashOf slot).purgeExpired nowMs) fields := by
    rw [← h.view_eq]
    exact purged_purge h.sound
  have hbody := hpurged.hincrby env field delta
  refine agrees_upserting h hbody ?_
  unfold hincrby
  cases fields.lookup (keyStr field) with
  | none => exact put_ne_nil _ _ _
  | some held =>
    dsimp only
    cases storedInteger held.value with
    | none => exact put_ne_nil _ _ _
    | some current => exact put_ne_nil _ _ _

theorem agrees_hincrbyfloat
    (hlive : (hashOf slot).fieldExpired (keyStr field) nowMs = false) (delta : F64) :
    Agrees nowMs (cmdHincrbyfloat slot now field delta)
      (hincrbyfloat field delta fields) := by
  have hbody := matches_hincrbyfloat h.sound hlive delta
  rw [h.view_eq] at hbody
  refine agrees_upserting h hbody ?_
  unfold hincrbyfloat
  cases hheld : fields.lookup (keyStr field) with
  | none => exact put_ne_nil _ _ _
  | some held =>
    dsimp only
    cases storedDouble held.value with
    | none => exact ne_nil_of_mem (mem_of_lookup hheld)
    | some current => exact put_ne_nil _ _ _

theorem agrees_hsetnx
    (hlive : (hashOf slot).fieldExpired (keyStr field) nowMs = false) (value : Bytes) :
    Agrees nowMs (cmdHsetnx slot now field value) (hsetnx field value fields) := by
  have hbody := matches_hsetnx h.sound hlive value
  rw [h.view_eq] at hbody
  refine agrees_upserting h hbody ?_
  unfold hsetnx
  cases hheld : fields.lookup (keyStr field) with
  | none => exact put_ne_nil _ _ _
  | some held => exact ne_nil_of_mem (mem_of_lookup hheld)

/-- `HSTRLEN` does not look at deadlines, so an expired field must have no bytes. -/
theorem agrees_hstrlen
    (hlooks : Looks env nowMs (hashOf slot) (.hstrlen field)) :
    Agrees nowMs (slot, cmdHstrlen slot now field)
      (fields, .integer ((fields.lookup (keyStr field)).elim 0 fun held => held.value.length)) := by
  refine agrees_reading h (fun hnil => by rw [hnil]; rfl) fun _ => ?_
  have hlength : ∀ held : Option HashData.Field,
      (held.elim 0 fun held => (held.value.length : Int)) =
        (held.map (·.value)).elim 0 fun value => (value.length : Int) := by
    intro held
    cases held <;> rfl
  rw [hlength, h.lookup_value, getLive]
  cases hexpired : (hashOf slot).fieldExpired (keyStr field) nowMs with
  | false => rfl
  | true =>
    rcases hlooks hexpired with hnone | hempty
    · simp [hnone]
    · simp [hempty]

/-- `HRANDFIELD` picks from the live fields, in their order. -/
theorem agrees_hrandfield (count : Option Int64) (withValues : Bool) (seed : Nat) :
    Agrees nowMs (slot, cmdHrandfield slot now nowMs count withValues seed)
      (execute env nowMs fields (.hrandfield count withValues seed)) := by
  simp only [Eager.execute, cmdHrandfield]
  cases count.elim (Except.ok 0) fun count => absCount count withValues with
  | error message => exact ⟨h, rfl⟩
  | ok n =>
    refine agrees_reading h (fun hnil => ?_) fun hne => ?_
    · rw [if_pos hnil]
    · rw [if_neg hne, h.pairs_eq]

/-- **A command that looks past the fields whose deadline has passed does what it does where there
are no such fields.** -/
theorem agrees_execute {c : Hashes.Command} (hlooks : Looks env nowMs (hashOf slot) c) :
    Agrees nowMs (execute env slot now nowMs c) (execute env nowMs fields c) := by
  cases c with
  | hset isHmset encrypted nonce first more => exact agrees_hset h hlooks
  | hsetnx field value => exact agrees_hsetnx h hlooks value
  | hincrby field delta => exact agrees_hincrby h env field delta
  | hincrbyfloat field delta => exact agrees_hincrbyfloat h hlooks delta
  | hdel names => exact agrees_hdel h hlooks
  | hpersist names => exact agrees_hpersist h names
  | hexpire unit ttl cond names =>
    exact agrees_thread h .integers
      (fun map fields field hp => hp.hexpireField (unit.deadline nowMs ttl) cond field)
      (fun _ => rfl) fun _ => .inl rfl
  | hgetdel names =>
    exact agrees_thread h .bulks (fun map fields field hp => hp.hgetdelField env field)
      (fun _ => rfl) fun _ => .inl rfl
  | hgetex ttl names =>
    exact agrees_thread h .bulks (fun map fields field hp => hp.hgetexField env ttl field)
      (fun _ => rfl) fun _ => .inl rfl
  | hstrlen field => exact agrees_hstrlen h hlooks
  | hget field =>
    refine agrees_reading h (fun hnil => by rw [hnil]; rfl) fun _ => ?_
    rw [h.lookup_value]
  | hmget names =>
    refine agrees_reading h (fun hnil => by simp [hnil, decrypted]) fun _ => ?_
    simp [h.lookup_value]
  | hgetall =>
    refine agrees_reading h (fun hnil => by rw [hnil]; rfl) fun _ => ?_
    rw [h.pairs_eq]
  | hkeys =>
    refine agrees_reading h (fun hnil => by rw [hnil]; rfl) fun _ => ?_
    rw [← h.pairs_eq, pairs, map_map]
    rfl
  | hvals =>
    refine agrees_reading h (fun hnil => by rw [hnil]; rfl) fun _ => ?_
    rw [h.pairs_eq]
  | hlen =>
    refine agrees_reading h (fun hnil => by rw [hnil]; rfl) fun _ => ?_
    rw [← h.view_eq, length_view]
  | hexists field =>
    refine agrees_reading h (fun hnil => by rw [hnil]; rfl) fun _ => ?_
    rw [containsLive_eq, ← h.lookup_value, Option.isSome_map]
  | hrandfield count withValues seed => exact agrees_hrandfield h count withValues seed
  | hscan cursor count pattern novalues =>
    refine agrees_reading h (fun hnil => ?_) fun _ => ?_
    · rw [hnil]
      -- A page of nothing is the last one.
      cases novalues <;> simp [pairs, hscanReply, pageItems]
    · rw [h.pairs_eq]
  | httl form names =>
    refine agrees_reading h (fun hnil => by rw [hnil]; rfl) fun _ => ?_
    simp only [containsLive_eq, ← h.view_eq, lookup_view]
    congr 1
    refine map_congr_left fun name _ => ?_
    cases (hashOf slot).getLive (keyStr name) nowMs <;> rfl
  | «exists» =>
    refine ⟨h, ?_⟩
    cases h with
    | absent => rfl
    | present sound live => simp [Hashes.execute, Eager.execute, cmdExists, live_hash, live]
  | type =>
    refine ⟨h, ?_⟩
    cases h with
    | absent => rfl
    | present sound live =>
      simp [Hashes.execute, Eager.execute, cmdType, live_hash, live, StoreValue.typeName]

end Commands

/-! ## Runs -/

/-- The entry under the key, the clock, and the replies so far. -/
structure State where
  slot : Option Entry
  nowMs : Int64
  replies : List Reply
  deriving DecidableEq

/-- The same where fields go when their deadline passes. -/
structure EagerState where
  fields : Fields
  nowMs : Int64
  replies : List Reply
  deriving DecidableEq

inductive Label where
  | command (now : Instant) (c : Hashes.Command)
  | advance (later : Int64)

/-- A clock does not step back. -/
def advanced (nowMs later : Int64) : Int64 := if nowMs ≤ later then later else nowMs

/-- A command runs at the clock as it stands; the clock never goes back. -/
def step (env : Env) (s : State) : Label → State
  | .command now c =>
    let (slot, reply) := Hashes.execute env s.slot now s.nowMs c
    ⟨slot, s.nowMs, s.replies ++ [reply]⟩
  | .advance later => { s with nowMs := advanced s.nowMs later }

def eagerStep (env : Env) (s : EagerState) : Label → EagerState
  | .command _ c =>
    let (fields, reply) := Eager.execute env s.nowMs s.fields c
    ⟨fields, s.nowMs, s.replies ++ [reply]⟩
  | .advance later =>
    { s with
        nowMs := advanced s.nowMs later
        fields := Eager.expire (advanced s.nowMs later) s.fields }

/-- A command looks past the fields whose deadline has passed, and the clock leaves a live field. -/
def Ok (env : Env) (s : State) : Label → Prop
  | .command _ c => Looks env s.nowMs (hashOf s.slot) c
  | .advance later =>
    s.slot = none ∨ (hashOf s.slot).liveIter (advanced s.nowMs later) ≠ []

instance (env : Env) (s : State) : ∀ label, Decidable (Ok env s label)
  | .command _ c => inferInstanceAs (Decidable (Looks env s.nowMs (hashOf s.slot) c))
  | .advance _ => inferInstanceAs (Decidable (_ ∨ _))

/-- The state without the key. -/
def State.initial (start : Int64) : State := ⟨none, start, []⟩

def EagerState.initial (start : Int64) : EagerState := ⟨[], start, []⟩

/-- The two states tell the same. -/
structure Same (s : State) (t : EagerState) : Prop where
  standing : Standing s.nowMs s.slot t.fields
  clock : s.nowMs = t.nowMs
  replies : s.replies = t.replies

theorem le_advanced (nowMs later : Int64) : nowMs ≤ advanced nowMs later := by
  unfold advanced
  split
  · assumption
  · exact Int64.le_refl nowMs

/-- Time alone takes the same fields from both. -/
theorem standing_advance {slot : Option Entry} {fields : Fields} {later : Int64}
    (h : Standing nowMs slot fields) (hlater : nowMs ≤ later)
    (hleft : slot = none ∨ (hashOf slot).liveIter later ≠ []) :
    Standing later slot (expire later fields) := by
  cases h with
  | absent => exact .absent
  | present sound live =>
    rw [expire, ← view_advance hlater]
    refine .present sound ?_
    rcases hleft with hnone | hleft
    · cases hnone
    · rw [HashData.view, Ne, map_eq_nil_iff]
      exact hleft

/-- **One step.** -/
theorem same_step (env : Env) {s : State} {t : EagerState} {label : Label} (h : Same s t)
    (hok : Ok env s label) : Same (step env s label) (eagerStep env t label) := by
  obtain ⟨fields, clock, replies⟩ := t
  obtain ⟨hstanding, rfl, rfl⟩ := h
  cases label with
  | command now c =>
    have hagrees : Agrees s.nowMs (execute env s.slot now s.nowMs c)
        (execute env s.nowMs fields c) := agrees_execute hstanding hok
    exact ⟨hagrees.1, rfl, congrArg (fun reply => s.replies ++ [reply]) hagrees.2⟩
  | advance later => exact ⟨standing_advance hstanding (le_advanced _ _) hok, rfl, rfl⟩

section Overwrites

/-- The deadline of a field in an entry. -/
def deadlineOf (slot : Option Entry) (name : Str) : Option Int64 :=
  (hashOf slot).expiries.lookup name

/-- A pass of writes leaves no deadline on what it writes, and brings none. -/
theorem lookup_expiries_thread {name : Str} (pairs : List (Bytes × Bytes)) : ∀ map : HashData,
    (map.expiries.lookup name = none ∨ ∃ p ∈ pairs, keyString env.lossy p.1 = name) →
      (pairs.thread (hsetPair env) map).1.expiries.lookup name = none := by
  induction pairs with
  | nil =>
    intro map h
    rcases h with h | ⟨p, hp, -⟩
    · exact h
    · cases hp
  | cons pair pairs ih =>
    intro map h
    refine ih _ ?_
    by_cases hname : keyString env.lossy pair.1 = name
    · left
      rw [← hname]
      exact lookup_erase_self _ _
    · rcases h with h | ⟨p, hp, hp'⟩
      · left
        exact (lookup_erase_of_ne _ (Ne.symm hname)).trans h
      · rcases mem_cons.mp hp with rfl | hp
        · exact absurd hp' hname
        · exact .inr ⟨p, hp, hp'⟩

variable {pairs stored : List (Bytes × Bytes)}

/-- The names of the pairs are kept when their values are prepared. -/
theorem storedPairs_names {encrypted : Bool} {nonce : Nat} {held : Str → Option Bytes}
    (h : storedPairs env encrypted nonce held pairs = .ok stored) :
    List.Forall₂ (fun p q => q.1 = p.1) pairs stored := by
  refine (forall₂_of_mapM_eq_ok h).imp fun p q hq => ?_
  split at hq
  · obtain ⟨value, -, rfl⟩ := map_eq_ok.mp hq
    rfl
  · cases hq
    rfl

/-- `HSET` takes the deadlines of the fields it writes. -/
theorem lookup_expiries_hsetMap {isHmset : Bool}
    (hnames : List.Forall₂ (fun p q => q.1 = p.1) pairs stored) (map : HashData) :
    ∀ p ∈ pairs, (hsetMap env nowMs isHmset stored map).1.expiries.lookup
      (keyString env.lossy p.1) = none := by
  intro p hp
  obtain ⟨q, hq, hname⟩ := exists_of_forall₂ hnames p hp
  exact lookup_expiries_thread stored _ (.inr ⟨q, hq, by rw [hname]⟩)

/-- **A plain overwrite clears the deadline**, on every entry and at every time. -/
theorem deadlineOf_cmdHset {slot : Option Entry} {isHmset encrypted : Bool} {nonce : Nat}
    {pairs : List (Bytes × Bytes)}
    (hwritten : ∀ message,
      (cmdHset env slot now nowMs isHmset encrypted nonce pairs).2 ≠ .error message) :
    ∀ p ∈ pairs, deadlineOf (cmdHset env slot now nowMs isHmset encrypted nonce pairs).1
      (keyString env.lossy p.1) = none := by
  unfold cmdHset at hwritten ⊢
  cases hprepared : prepareHset env slot now encrypted nonce pairs with
  | error message =>
    rw [hprepared] at hwritten
    exact absurd rfl (hwritten message)
  | ok stored =>
    simp only [hprepared] at hwritten ⊢
    unfold prepareHset at hprepared
    cases hlive : live slot now with
    | none =>
      rw [reading_absent hlive] at hprepared
      rw [upserting_absent hlive]
      exact lookup_expiries_hsetMap (storedPairs_names hprepared) _
    | some entry =>
      by_cases hhash : ∃ map, entry.value = .hash map
      · obtain ⟨map, hvalue⟩ := hhash
        rw [reading_hash hlive hvalue] at hprepared
        rw [upserting_hash hlive hvalue]
        exact lookup_expiries_hsetMap (storedPairs_names hprepared) map
      · rw [upserting_other hlive fun map hvalue => hhash ⟨map, hvalue⟩] at hwritten
        exact absurd rfl (hwritten _)

end Overwrites

/-- The end of a run of the server, and of the same run where fields go when their deadline
passes. -/
def ends (env : Env) (start : Int64) (labels : List Label) : State :=
  Runs.run (step env) (.initial start) labels

def eagerEnds (env : Env) (start : Int64) (labels : List Label) : EagerState :=
  Runs.run (eagerStep env) (.initial start) labels

/-- **Fields whose deadline has passed are as if they were not there.**  After every run from a
missing key in which the commands look past such fields and the clock always leaves a live one: the
replies are those of the eager model and so are the live fields; only fields that are there have
deadlines; the key is reported absent exactly when no field is live; and an `HSET` that is not
refused leaves no deadline on what it writes. -/
theorem behaves_eagerly (env : Env) (start : Int64) (labels : List Label)
    (hsafe : Runs.Safe (step env) (Ok env) (.initial start) labels) :
    (ends env start labels).replies = (eagerEnds env start labels).replies ∧
      (hashOf (ends env start labels).slot).view (ends env start labels).nowMs =
        (eagerEnds env start labels).fields ∧
      (∀ p ∈ (hashOf (ends env start labels).slot).expiries,
        p.1 ∈ (hashOf (ends env start labels).slot).fields.map Prod.fst) ∧
      (∀ now, cmdExists (ends env start labels).slot now = .integer 0 ↔
        (hashOf (ends env start labels).slot).liveIter (ends env start labels).nowMs = []) ∧
      ∀ now isHmset encrypted nonce pairs,
        (∀ message, (cmdHset env (ends env start labels).slot now (ends env start labels).nowMs
          isHmset encrypted nonce pairs).2 ≠ .error message) →
        ∀ p ∈ pairs, deadlineOf (cmdHset env (ends env start labels).slot now
          (ends env start labels).nowMs isHmset encrypted nonce pairs).1
            (keyString env.lossy p.1) = none := by
  have hstep : ∀ s t label, Same s t → Ok env s label →
      Same (step env s label) (eagerStep env t label) :=
    fun s t label h hok => same_step env h hok
  have hsame : Same (ends env start labels) (eagerEnds env start labels) :=
    Runs.simulates hstep hsafe ⟨.absent, rfl, rfl⟩
  obtain ⟨hstanding, -, hreplies⟩ := hsame
  refine ⟨hreplies, hstanding.view_eq, hstanding.sound.owned,
    fun now => hstanding.cmdExists_iff, ?_⟩
  intro now isHmset encrypted nonce pairs hwritten
  exact deadlineOf_cmdHset hwritten

def fieldA : Bytes := utf8 (str "a")

def fieldB : Bytes := utf8 (str "b")

/-- A field with a deadline that passes, and one without. -/
def lapse : List Label :=
  [.command 0 (.hset false false 0 (fieldA, utf8 (str "1")) [(fieldB, utf8 (str "2"))]),
    .command 0 (.hexpire .millisAt 10 .none [fieldA]), .advance 20]

/-- A run in which a deadline passes, the field is written anew, and the hash is emptied. -/
theorem behaves_eagerly_lapse :
    Runs.Safe (step plainEnv) (Ok plainEnv) (.initial 0)
        (lapse ++ ([.command 0 (.hget fieldA), .command 0 (.hincrby fieldA 5), .command 0 .hlen,
          .command 0 (.hdel [fieldA, fieldB]), .command 0 .exists] : List Label)) ∧
      (ends plainEnv 0
        (lapse ++ ([.command 0 (.hget fieldA), .command 0 (.hincrby fieldA 5), .command 0 .hlen,
          .command 0 (.hdel [fieldA, fieldB]), .command 0 .exists] : List Label))).replies =
        (eagerEnds plainEnv 0
          (lapse ++ ([.command 0 (.hget fieldA), .command 0 (.hincrby fieldA 5), .command 0 .hlen,
            .command 0 (.hdel [fieldA, fieldB]), .command 0 .exists] : List Label))).replies := by
  refine (fun hsafe => ⟨hsafe, (behaves_eagerly plainEnv 0 _ hsafe).1⟩) ?_
  decide +kernel

/-- Behind the deadline `HSTRLEN` reports the length of the value, `HSETNX` writes nothing,
`HINCRBYFLOAT` counts on from the value and writes a field that cannot be read, and the key is
still reported when the other field is deleted. -/
theorem lapsed_field_seen :
    (ends plainEnv 0 (lapse ++ ([.command 0 (.hstrlen fieldA),
      .command 0 (.hsetnx fieldA (utf8 (str "7"))),
      .command 0 (.hincrbyfloat fieldA (Float.Model.ofBits 0x3FF0000000000000)),
      .command 0 (.hget fieldA), .command 0 (.hdel [fieldB]), .command 0 .hlen,
      .command 0 .exists] : List Label))).replies =
        [.integer 2, .integers [1], .integer 1, .integer 0, .bulk (some (utf8 (str "2"))),
          .bulk none, .integer 1, .integer 0, .integer 1] ∧
      (eagerEnds plainEnv 0 (lapse ++ ([.command 0 (.hstrlen fieldA),
        .command 0 (.hsetnx fieldA (utf8 (str "7"))),
        .command 0 (.hincrbyfloat fieldA (Float.Model.ofBits 0x3FF0000000000000)),
        .command 0 (.hget fieldA), .command 0 (.hdel [fieldB]), .command 0 .hlen,
        .command 0 .exists] : List Label))).replies =
        [.integer 2, .integers [1], .integer 0, .integer 1, .bulk (some (utf8 (str "8"))),
          .bulk (some (utf8 (str "8"))), .integer 1, .integer 1, .integer 1] ∧
      (ends plainEnv 0
        (lapse ++ ([.command 0 (.hdel [fieldB]), .command 0 .hlen,
          .command 0 .exists] : List Label))).replies =
        [.integer 2, .integers [1], .integer 1, .integer 0, .integer 1] ∧
      (eagerEnds plainEnv 0
        (lapse ++ ([.command 0 (.hdel [fieldB]), .command 0 .hlen,
          .command 0 .exists] : List Label))).replies =
        [.integer 2, .integers [1], .integer 1, .integer 0, .integer 0] := by
  refine ⟨?_, ?_, ?_, ?_⟩
  · decide +kernel
  · decide +kernel
  · decide +kernel
  · decide +kernel

end Lux.HashExpiry
