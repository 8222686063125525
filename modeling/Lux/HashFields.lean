import Lux.HashCommands

/-!
# The live fields of a hash

What the operations on a hash and its deadlines do to the fields that are live at a time, and what
a command of each kind does to an entry that is live and holds a hash.
-/

namespace Lux.HashData

open ByteCodec StdText KeyedList List

variable {map : HashData} {nowMs : Int64} {field : Str}

/-- A field is expired from its deadline on. -/
theorem fieldExpired_iff :
    map.fieldExpired field nowMs = true ↔
      ∃ deadline, map.expiries.lookup field = some deadline ∧ deadline ≤ nowMs := by
  simp only [fieldExpired, Option.any_eq_true, decide_eq_true_eq]

/-- Removing fields one by one leaves the others. -/
theorem foldl_removeField (names : List Str) : ∀ map : HashData,
    names.foldl removeField map =
      ⟨map.fields.filter fun p => !names.contains p.1,
        map.expiries.filter fun p => !names.contains p.1⟩ := by
  induction names with
  | nil =>
    simp
  | cons name names ih =>
    intro map
    rw [foldl_cons, ih]
    simp only [removeField, erase, filter_filter, contains_cons, Bool.not_or, Bool.and_comm, bne]

section Purge

variable (hdistinct : (map.expiries.map Prod.fst).Nodup)
include hdistinct

variable (field : Str)

/-- The fields that a purge removes are those whose deadline has passed. -/
theorem contains_expired :
    ((map.expiries.filter fun p => p.2 ≤ nowMs).map Prod.fst).contains field =
      map.fieldExpired field nowMs := by
  rw [Bool.eq_iff_iff, contains_iff_mem, fieldExpired_iff]
  constructor
  · intro h
    obtain ⟨p, hp, rfl⟩ := mem_map.mp h
    obtain ⟨hmem, hpassed⟩ := mem_filter.mp hp
    exact ⟨p.2, lookup_of_mem hdistinct hmem, of_decide_eq_true hpassed⟩
  · intro ⟨deadline, hlookup, hpassed⟩
    have hmem : (field, deadline) ∈ map.expiries.filter fun p => p.2 ≤ nowMs :=
      mem_filter.mpr ⟨mem_of_lookup hlookup, decide_eq_true hpassed⟩
    exact mem_map_of_mem hmem

/-- **A purge keeps the live fields and their deadlines.** -/
theorem purgeExpired_eq :
    map.purgeExpired nowMs =
      ⟨map.liveIter nowMs, map.expiries.filter fun p => !map.fieldExpired p.1 nowMs⟩ := by
  rw [purgeExpired, foldl_removeField]
  simp only [contains_expired hdistinct, liveIter]

/-- Purging leaves what is live. -/
theorem lookup_fields_purge :
    (map.purgeExpired nowMs).fields.lookup field = map.getLive field nowMs := by
  rw [purgeExpired_eq hdistinct]
  change (map.fields.filter fun p => !map.fieldExpired p.1 nowMs).lookup field = _
  rw [lookup_filter_key fun name => !map.fieldExpired name nowMs, getLive]
  cases map.fieldExpired field nowMs <;> rfl

/-- Purging takes the deadlines of the purged fields along. -/
theorem lookup_expiries_purge : (map.purgeExpired nowMs).expiries.lookup field =
      if map.fieldExpired field nowMs then none else map.expiries.lookup field := by
  rw [purgeExpired_eq hdistinct]
  rw [lookup_filter_key fun name => !map.fieldExpired name nowMs]
  cases map.fieldExpired field nowMs <;> rfl

/-- Behind a purge no deadline has passed. -/
theorem fieldExpired_purge : (map.purgeExpired nowMs).fieldExpired field nowMs = false := by
  rw [← Bool.not_eq_true, fieldExpired_iff]
  intro ⟨deadline, hlookup, hpassed⟩
  rw [lookup_expiries_purge hdistinct] at hlookup
  split at hlookup
  · cases hlookup
  · rename_i hlive
    exact hlive (fieldExpired_iff.mpr ⟨deadline, hlookup, hpassed⟩)

end Purge

/-! ## Hashes as commands build them -/

/-- Names occur once, and only a field that is there has a deadline. -/
structure Sound (map : HashData) : Prop where
  fields : (map.fields.map Prod.fst).Nodup
  expiries : (map.expiries.map Prod.fst).Nodup
  owned : ∀ p ∈ map.expiries, p.1 ∈ map.fields.map Prod.fst

theorem sound_empty : empty.Sound := ⟨nodup_nil, nodup_nil, fun _ hp => by cases hp⟩

/-- A field that is not there has no deadline. -/
theorem Sound.lookup_expiries_none (h : map.Sound) (hnone : map.fields.lookup field = none) :
    map.expiries.lookup field = none := by
  cases hdeadline : map.expiries.lookup field with
  | none => rfl
  | some deadline =>
    exact absurd (h.owned _ (mem_of_lookup hdeadline)) (not_mem_keys_of_lookup hnone)

/-- Fields and deadlines may be filtered together. -/
theorem Sound.filter (h : map.Sound) (keep : Str → Bool) :
    Sound ⟨map.fields.filter fun p => keep p.1, map.expiries.filter fun p => keep p.1⟩ where
  fields := h.fields.sublist (filter_sublist.map _)
  expiries := h.expiries.sublist (filter_sublist.map _)
  owned p hp := by
    obtain ⟨hmem, hkeep⟩ := mem_filter.mp hp
    obtain ⟨q, hq, hname⟩ := mem_map.mp (h.owned p hmem)
    exact mem_map.mpr ⟨q, mem_filter.mpr ⟨hq, by rw [hname]; exact hkeep⟩, hname⟩

/-- Purging keeps a hash sound. -/
theorem Sound.purge (h : map.Sound) : (map.purgeExpired nowMs).Sound := by
  rw [purgeExpired_eq h.expiries]
  exact h.filter fun name => !map.fieldExpired name nowMs

theorem Sound.removeField (h : map.Sound) (field : Str) : (map.removeField field).Sound :=
  h.filter fun name => name != field

/-- A field may be written, whatever happens to its own deadline. -/
theorem Sound.put (h : map.Sound) (field : Str) (value : Bytes) {expiries : List (Str × Int64)}
    (hdistinct : (expiries.map Prod.fst).Nodup)
    (howned : ∀ p ∈ expiries, p.1 = field ∨ p ∈ map.expiries) :
    Sound ⟨KeyedList.put map.fields field value, expiries⟩ where
  fields := nodup_put h.fields field value
  expiries := hdistinct
  owned p hp := mem_keys_put.mpr ((howned p hp).imp_right (h.owned p))

/-! ## The view of the live fields -/

/-- A field with its deadline, if it has one. -/
structure Field where
  value : Bytes
  deadline : Option Int64
  deriving DecidableEq

/-- The live fields with their deadlines. -/
def view (map : HashData) (nowMs : Int64) : List (Str × Field) :=
  (map.liveIter nowMs).map fun p => (p.1, ⟨p.2, map.expiries.lookup p.1⟩)

/-- The names and values of a view. -/
def pairs (fields : List (Str × Field)) : List (Str × Bytes) :=
  fields.map fun p => (p.1, p.2.value)

/-- The view has the live pairs, with their deadlines. -/
theorem pairs_view : pairs (map.view nowMs) = map.liveIter nowMs := by
  simp [pairs, view, Function.comp_def]

theorem lookup_liveIter : (map.liveIter nowMs).lookup field = map.getLive field nowMs := by
  rw [liveIter, lookup_filter_key fun name => !map.fieldExpired name nowMs, getLive]
  cases map.fieldExpired field nowMs <;> rfl

/-- A field of the view is a live field. -/
theorem lookup_view : (map.view nowMs).lookup field =
    (map.getLive field nowMs).map fun value => ⟨value, map.expiries.lookup field⟩ := by
  have h := lookup_map_values (fun name value => (⟨value, map.expiries.lookup name⟩ : Field))
    (map.liveIter nowMs) field
  rwa [lookup_liveIter] at h

theorem lookup_view_of_live (hlive : map.fieldExpired field nowMs = false) :
    (map.view nowMs).lookup field =
      (map.fields.lookup field).map fun value => ⟨value, map.expiries.lookup field⟩ := by
  rw [lookup_view, getLive, hlive, if_neg Bool.false_ne_true]

/-- The view has as many fields as `HLEN` counts. -/
theorem length_view : (map.view nowMs).length = map.liveLen nowMs := by
  rw [view, length_map, liveLen, countP_map, countP_eq_length_filter]
  rfl

theorem containsLive_eq : map.containsLive field nowMs = (map.getLive field nowMs).isSome := by
  rw [containsLive, getLive]
  cases map.fieldExpired field nowMs <;> simp

/-- A purge is not seen. -/
theorem view_purge (hdistinct : (map.expiries.map Prod.fst).Nodup) :
    (map.purgeExpired nowMs).view nowMs = map.view nowMs := by
  have hlive : (map.purgeExpired nowMs).liveIter nowMs = map.liveIter nowMs := by
    rw [liveIter, filter_eq_self.mpr fun p _ => by rw [fieldExpired_purge hdistinct]; rfl,
      purgeExpired_eq hdistinct]
  rw [view, hlive]
  refine map_congr_left fun p hp => ?_
  have hkept : map.fieldExpired p.1 nowMs = false := by
    simpa using (mem_filter.mp hp).2
  rw [lookup_expiries_purge hdistinct, hkept, if_neg Bool.false_ne_true]

/-- A field that is removed is gone from the view, and no other is. -/
theorem view_removeField (field : Str) :
    (map.removeField field).view nowMs = erase (map.view nowMs) field := by
  have hexpired : ∀ name, name ≠ field →
      (map.removeField field).expiries.lookup name = map.expiries.lookup name :=
    fun name hne => lookup_erase_of_ne _ hne
  have hlive : (map.removeField field).liveIter nowMs =
      (map.liveIter nowMs).filter fun p => p.1 != field := by
    simp only [liveIter, removeField, erase, filter_filter]
    refine filter_congr fun p _ => ?_
    by_cases hp : p.1 = field
    · simp [hp]
    · have h := hexpired p.1 hp
      simp only [removeField, erase] at h
      simp [fieldExpired, h, Bool.and_comm]
  rw [view, hlive, view, erase, filter_map]
  refine map_congr_left fun p hp => ?_
  have hne : p.1 ≠ field := bne_iff_ne.mp (mem_filter.mp hp).2
  rw [hexpired p.1 hne]

/-- **A live or new field that is written is put into the view**, with the deadline it then has. -/
theorem view_update {map' : HashData} {value : Bytes}
    (hfields : map'.fields = put map.fields field value)
    (hother : ∀ name, name ≠ field → map'.expiries.lookup name = map.expiries.lookup name)
    (hlive : map.fieldExpired field nowMs = false)
    (hlive' : map'.fieldExpired field nowMs = false) :
    map'.view nowMs = put (map.view nowMs) field ⟨value, map'.expiries.lookup field⟩ := by
  have hsame : ∀ name, map'.fieldExpired name nowMs = map.fieldExpired name nowMs := by
    intro name
    by_cases hname : name = field
    · rw [hname, hlive, hlive']
    · rw [fieldExpired, hother name hname, fieldExpired]
  have hview := lookup_view_of_live hlive
  simp only [view, liveIter, hsame, hfields]
  cases hheld : map.fields.lookup field with
  | some old =>
    -- The field is there: it is replaced where it stands.
    rw [hheld] at hview
    rw [put, put, hheld, Option.isSome_some, if_pos rfl]
    have hthere : ((map.view nowMs).lookup field).isSome := by rw [hview]; rfl
    rw [view, liveIter] at hthere
    rw [if_pos hthere, filter_map, map_map, map_map]
    have hfilter : (fun p : Str × Bytes => !map.fieldExpired p.1 nowMs) ∘
        (fun p => if p.1 == field then (field, value) else p) =
          fun p => !map.fieldExpired p.1 nowMs := by
      funext p
      by_cases hp : p.1 = field <;> simp [hp]
    rw [hfilter]
    refine map_congr_left fun p _ => ?_
    by_cases hp : p.1 = field
    · simp [hp]
    · simp [hp, hother p.1 hp]
  | none =>
    -- The field is new: it is appended.
    rw [hheld] at hview
    have hnew : field ∉ map.fields.map Prod.fst := not_mem_keys_of_lookup hheld
    have hunseen : field ∉ (map.view nowMs).map Prod.fst := not_mem_keys_of_lookup hview
    rw [view, liveIter] at hunseen
    rw [put_of_not_mem value hnew, put_of_not_mem _ hunseen, filter_append, map_append]
    congr 1
    · refine map_congr_left fun p hp => ?_
      have hne : p.1 ≠ field := by
        rintro rfl
        exact hnew (mem_map_of_mem (mem_of_mem_filter hp))
      rw [hother p.1 hne]
    · simp [hlive]

/-- When the clock advances, the fields whose deadline passes leave the view. -/
theorem view_advance {later : Int64} (hlater : nowMs ≤ later) :
    map.view later =
      (map.view nowMs).filter fun p => !(p.2.deadline.any fun deadline => deadline ≤ later) := by
  have hstill : ∀ name, map.fieldExpired name nowMs = true →
      map.fieldExpired name later = true := by
    intro name h
    obtain ⟨deadline, hlookup, hpassed⟩ := fieldExpired_iff.mp h
    exact fieldExpired_iff.mpr ⟨deadline, hlookup, Int64.le_trans hpassed hlater⟩
  rw [view, view, filter_map]
  congr 1
  rw [liveIter, liveIter, filter_filter]
  refine filter_congr fun p _ => ?_
  change (!map.fieldExpired p.1 later) =
    ((!map.fieldExpired p.1 later) && !map.fieldExpired p.1 nowMs)
  have h := hstill p.1
  revert h
  cases map.fieldExpired p.1 later <;> cases map.fieldExpired p.1 nowMs <;> simp

end Lux.HashData

namespace Lux.Hashes

section Kinds

variable {slot : Option Entry} {now : Instant} {entry : Entry} {map : HashData}

/-- An entry that is not expired is live. -/
theorem live_of_due (h : entry.isExpiredAt now = false) : live (some entry) now = some entry := by
  simp [live, h]

theorem due_of_live (h : live slot now = some entry) : entry.isExpiredAt now = false := by
  have hdue := (Option.filter_eq_some_iff.mp h).2
  rwa [Bool.not_eq_true'] at hdue

theorem slot_of_live (h : live slot now = some entry) : slot = some entry :=
  (Option.filter_eq_some_iff.mp h).1

/-- What the commands do at a key that is missing or holds a hash: those that read. -/
theorem reading_absent {α : Type} {absent wrong : α} {body : HashData → α}
    (hlive : live slot now = none) : reading slot now absent wrong body = absent := by
  rw [reading, hlive]

theorem reading_hash {α : Type} {absent wrong : α} {body : HashData → α}
    (hlive : live slot now = some entry) (hvalue : entry.value = .hash map) :
    reading slot now absent wrong body = body map := by
  simp only [reading, hlive, hvalue]

variable {body : HashData → HashData × Reply}

theorem upserting_absent (hlive : live slot now = none) :
    upserting slot now body = (some ⟨.hash (body .empty).1, none⟩, (body .empty).2) := by
  simp only [upserting, hlive, Option.getD_none]

theorem upserting_hash (hlive : live slot now = some entry) (hvalue : entry.value = .hash map) :
    upserting slot now body = (some { entry with value := .hash (body map).1 }, (body map).2) := by
  simp only [upserting, hlive, Option.getD_some, hvalue]

theorem upserting_other (hlive : live slot now = some entry)
    (hvalue : ∀ map, entry.value ≠ .hash map) :
    upserting slot now body = (slot, .error Strings.wrongType) := by
  obtain rfl := slot_of_live hlive
  cases hentry : entry.value with
  | hash map => exact absurd hentry (hvalue map)
  | _ => simp only [upserting, hlive, Option.getD_some]

end Kinds

end Lux.Hashes
