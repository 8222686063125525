import Lux.StreamCursors

/-!
# Entries delivered to a group

A group hands out the entries behind its cursor: a read with `>` returns them and moves the
cursor to the last of them. Every other command leaves the cursors alone, so what was
delivered lies at or before the cursor and what is delivered next lies behind it.

The argument has two gaps. A call plans all its deliveries before it moves a cursor, so a
stream that is named twice with `>` is delivered twice; and a cursor with the largest
sequence number has a successor that wraps to the beginning of its millisecond.
`delivered_once` shows that there are no others: in every run whose calls name a stream with
something unread at most once with `>` and read no group whose cursor wraps over entries, the
identifiers a group has delivered strictly increase, whichever consumers they went to.

The history of a group begins with its creation; a group created again under an old name is a
new one.
-/

namespace Lux.Streams

open ByteCodec StdText KeyedList List

/-! ## What a call plans -/

/-- The entries a call finds behind the cursor of its group. -/
def unread (reveal : Bytes → Fields → Fields) (data : List (Bytes × Entry)) (call : GroupRead)
    (key : Str) : StreamEntries :=
  (cursor data (utf8 key) call.group).elim [] fun last =>
    readFrom (reveal (utf8 key)) (started (data.lookup (utf8 key))) last.successor call.count

/-- What is planned for one named stream. -/
inductive Planned (reveal : Bytes → Fields → Fields) (data : List (Bytes × Entry))
    (call : GroupRead) : Str × Str → List (Str × StreamEntries) × List ReadEffect → Prop
  | nothing (key : Str) (h : unread reveal data call key = []) :
      Planned reveal data call (key, ['>']) ([], [])
  | deliver (key : Str) (consumer : Option Str) (last : StreamId × Fields)
      (ids : List StreamId) (h : (unread reveal data call key).getLast? = some last) :
      Planned reveal data call (key, ['>'])
        ([(key, unread reveal data call key)], [.deliver key consumer last.1 ids])
  | pending (key id : Str) (hid : id ≠ ['>'])
      (part : List (Str × StreamEntries) × List ReadEffect)
      (h : ∀ effect ∈ part.2, effect = .createConsumer key) :
      Planned reveal data call (key, id) part

variable {reveal : Bytes → Fields → Fields} {data : List (Bytes × Entry)} {call : GroupRead}

theorem planned_previewOne (hdata : AllLasting data) {now : Instant} {named : Str × Str}
    {part : List (Str × StreamEntries) × List ReadEffect}
    (h : previewOne reveal data now call named.1 named.2 = .ok part) :
    Planned reveal data call named part := by
  obtain ⟨key, id⟩ := named
  have hlasting := hdata (utf8 key)
  by_cases hid : id = ['>']
  · subst hid
    cases hslot : data.lookup (utf8 key) with
    | none =>
      simp only [previewOne, hslot] at h
      cases h
      exact .nothing key (by simp [unread, cursor, hslot, started, empty])
    | some entry =>
      rw [hslot] at hlasting
      cases hlasting with
      | stream stream hstream =>
        cases hgroup : stream.groups.lookup call.group with
        | none => simp [previewOne, hslot, live, Entry.isExpiredAt, hgroup] at h
        | some group =>
          have hunread : unread reveal data call key =
              readFrom (reveal (utf8 key)) stream group.lastDeliveredId.successor call.count := by
            simp [unread, cursor, hslot, started, hgroup]
          cases hlast : (unread reveal data call key).getLast? with
          | none =>
            simp [previewOne, hslot, live, Entry.isExpiredAt, hgroup, ← hunread, hlast] at h
            subst h
            exact .nothing key (getLast?_eq_none_iff.mp hlast)
          | some last =>
            simp [previewOne, hslot, live, Entry.isExpiredAt, hgroup, ← hunread, hlast] at h
            subst h
            exact .deliver key _ last _ hlast
  refine .pending key id hid part ?_
  intro effect heffect
  unfold previewOne at h
  split at h
  · split at h
    · cases h
    simp only [hid] at h
    injection h with h
    rw [← h] at heffect
    split at heffect
    · cases heffect
    · exact mem_singleton.mp heffect
  · cases h
    cases heffect

section Plan

variable {reveal : Bytes → Fields → Fields} {data : List (Bytes × Entry)} {call : GroupRead}
  {streams : List (Str × Str)} {parts : List (List (Str × StreamEntries) × List ReadEffect)}

/-- The deliveries of one stream. -/
def deliveredFrom (reveal : Bytes → Fields → Fields) (data : List (Bytes × Entry))
    (call : GroupRead) (key : Str) : List Delivery :=
  (unread reveal data call key).map fun e => ⟨utf8 key, call.group, call.consumer, e.1⟩

variable (h : List.Forall₂ (Planned reveal data call) streams parts)
include h

/-- A reply delivers what is unread in the streams named with `>`. -/
theorem deliveries_of_planned : ((streams.zip (parts.map Prod.fst)).flatMap fun p =>
      if p.1.2 = ['>'] then
        p.2.flatMap fun r => r.2.map fun e =>
          (⟨utf8 r.1, call.group, call.consumer, e.1⟩ : Delivery)
      else []) = (namedNew streams).flatMap (deliveredFrom reveal data call) := by
  induction h with
  | nil => rfl
  | @cons named part streams parts hpart _ ih =>
    rw [map_cons, zip_cons_cons, flatMap_cons, ih]
    cases hpart with
    | nothing key hnone => simp [namedNew, deliveredFrom, hnone]
    | deliver key consumer last ids _ => simp [namedNew, deliveredFrom]
    | pending key id hid part _ => simp [namedNew, hid]

/-- Every planned move puts the cursor on the last unread entry of a stream named with `>`. -/
theorem moves_of_planned
    {key : Bytes} {effect : ReadEffect} (heffect : effect ∈ parts.flatMap Prod.snd)
    {last : StreamId} (hmoves : Moves key effect last) :
    ∃ name ∈ namedNew streams, utf8 name = key ∧
      ∃ entry, (unread reveal data call name).getLast? = some entry ∧ entry.1 = last := by
  obtain ⟨name, consumer, ids, rfl, hname⟩ := hmoves
  induction h with
  | nil => cases heffect
  | @cons named part streams parts hpart _ ih =>
    rw [flatMap_cons, mem_append] at heffect
    rcases heffect with hhere | hlater
    · cases hpart with
      | nothing key hnone => cases hhere
      | deliver key' consumer' entry ids' hlast =>
        injection mem_singleton.mp hhere with hkey _ hid _
        subst hkey
        exact ⟨name, by simp [namedNew], hname, entry, hlast, hid.symm⟩
      | pending key id hid part hcreate => cases hcreate _ hhere
    · obtain ⟨found, hfound, hrest⟩ := ih hlater
      refine ⟨found, ?_, hrest⟩
      exact ((sublist_cons_self named streams).filter _ |>.map _).subset hfound

/-- A stream named with `>` that has something unread is planned to move. -/
theorem planned_moves
    {name : Str} (hname : name ∈ namedNew streams) (hunread : unread reveal data call name ≠ []) :
    ∃ effect ∈ parts.flatMap Prod.snd, ∃ last, Moves (utf8 name) effect last := by
  induction h with
  | nil => cases hname
  | @cons named part streams parts hpart _ ih =>
    have hlater : name ∈ namedNew streams →
        ∃ effect ∈ (part :: parts).flatMap Prod.snd, ∃ last, Moves (utf8 name) effect last := by
      intro hrest
      obtain ⟨effect, heffect, hmoves⟩ := ih hrest
      exact ⟨effect, mem_append_right _ heffect, hmoves⟩
    cases hpart with
    | nothing key hnone =>
      have hcases : name = key ∨ name ∈ namedNew streams := by simpa [namedNew] using hname
      rcases hcases with heq | hrest
      · exact absurd (heq ▸ hnone) hunread
      · exact hlater hrest
    | deliver key consumer last ids _ =>
      have hcases : name = key ∨ name ∈ namedNew streams := by simpa [namedNew] using hname
      rcases hcases with heq | hrest
      · refine ⟨.deliver key consumer last.1 ids, ?_, last.1, key, consumer, ids, rfl, ?_⟩
        · exact mem_append_left _ (mem_singleton_self _)
        · rw [heq]
      · exact hlater hrest
    | pending key id hid part _ =>
      have hrest : name ∈ namedNew streams := by simpa [namedNew, hid] using hname
      exact hlater hrest

end Plan

/-! ## What is unread -/

theorem pushUntil_sublist {α : Type} (count : Option Nat) (entries : List α) :
    (pushUntil count [] entries).Sublist entries := by
  cases count with
  | none =>
    rw [pushUntil_none]
    exact .refl _
  | some c =>
    rw [pushUntil_some c entries [] (by simp)]
    exact take_sublist _ _

theorem readFrom_ids_sublist (reveal : Fields → Fields) (stream : StreamData)
    (start : StreamId) (count : Option Nat) :
    ((readFrom reveal stream start count).map Prod.fst).Sublist
      ((SortedMap.rangeFrom start stream.entries).map Prod.fst) := by
  have hshown : (readFrom reveal stream start count).map Prod.fst =
      (pushUntil count [] (SortedMap.rangeFrom start stream.entries)).map Prod.fst := by
    simp [readFrom, shown]
  rw [hshown]
  exact (pushUntil_sublist count _).map _

variable {slot : Option Entry}

theorem Lasting.sorted (h : Lasting slot) : SortedMap.Sorted (started slot).entries := by
  cases h with
  | missing => exact Pairwise.nil
  | stream stream hstream => exact hstream

/-- What is unread increases. -/
theorem unread_increases (reveal : Bytes → Fields → Fields) (hdata : AllLasting data)
    (call : GroupRead) (key : Str) :
    ((unread reveal data call key).map Prod.fst).Pairwise (· < ·) := by
  cases hcursor : cursor data (utf8 key) call.group with
  | none =>
    simp only [unread, hcursor]
    exact Pairwise.nil
  | some last =>
    simp only [unread, hcursor]
    refine Pairwise.sublist (readFrom_ids_sublist _ _ _ _) ?_
    exact ((hdata (utf8 key)).sorted.of_sublist filter_sublist).keys

/-- What is unread lies behind the cursor, unless its successor wraps over entries. -/
theorem cursor_lt_of_mem_unread {key : Str} {id : StreamId}
    (hwrap : ∀ last ∈ cursor data (utf8 key) call.group,
      ¬ rereads (started (data.lookup (utf8 key))) last)
    (hid : id ∈ (unread reveal data call key).map Prod.fst) :
    ∃ last, cursor data (utf8 key) call.group = some last ∧ last < id := by
  cases hcursor : cursor data (utf8 key) call.group with
  | none =>
    simp only [unread, hcursor] at hid
    cases hid
  | some last =>
    simp only [unread, hcursor] at hid
    have hmem := (readFrom_ids_sublist _ _ _ _).subset hid
    rw [rangeFrom_successor (hwrap last hcursor)] at hmem
    obtain ⟨p, hp, rfl⟩ := mem_map.mp hmem
    exact ⟨last, rfl, of_decide_eq_true (mem_filter.mp hp).2⟩

theorem hasUnread_of_unread {key : Str}
    (hwrap : ∀ last ∈ cursor data (utf8 key) call.group,
      ¬ rereads (started (data.lookup (utf8 key))) last) (h : unread reveal data call key ≠ []) :
    hasUnread data call.group key = true := by
  cases hcursor : cursor data (utf8 key) call.group with
  | none => exact absurd (by simp [unread, hcursor]) h
  | some last =>
    simp only [hasUnread, hcursor, Option.any_some, decide_eq_true_eq]
    intro hnone
    refine h ?_
    simp only [unread, hcursor, Option.elim_some, readFrom,
      rangeFrom_successor (hwrap last hcursor), hnone, pushUntil, shown, map_nil]

theorem le_getLast {ids : List StreamId} (h : ids.Pairwise (· < ·)) {last id : StreamId}
    (hlast : ids.getLast? = some last) (hid : id ∈ ids) : id ≤ last := by
  obtain ⟨before, rfl⟩ := getLast?_eq_some_iff.mp hlast
  rw [pairwise_append] at h
  rcases mem_append.mp hid with hbefore | hlast
  · exact le_of_lt (h.2.2 id hbefore last mem_cons_self)
  · exact le_of_eq (mem_singleton.mp hlast)

/-! ## The log -/

theorem idsOf_append (first second : List Delivery) (key : Bytes) (group : Str) :
    idsOf (first ++ second) key group = idsOf first key group ++ idsOf second key group := by
  simp [idsOf]

/-- What a call adds to the log of one group: nothing, or what was unread in one stream. -/
theorem idsOf_delivered (reveal : Bytes → Fields → Fields) (data : List (Bytes × Entry))
    (call : GroupRead) (key : Bytes) (group : Str) {names : List Str} (hnodup : names.Nodup) :
    idsOf (names.flatMap (deliveredFrom reveal data call)) key group = [] ∨
      ∃ name ∈ names, utf8 name = key ∧ group = call.group ∧
        idsOf (names.flatMap (deliveredFrom reveal data call)) key group =
          (unread reveal data call name).map Prod.fst := by
  induction names with
  | nil => exact .inl rfl
  | cons name names ih =>
    obtain ⟨hfresh, hnodup⟩ := nodup_cons.mp hnodup
    rw [flatMap_cons, idsOf_append]
    by_cases hmine : utf8 name = key ∧ group = call.group
    · obtain ⟨rfl, rfl⟩ := hmine
      have hhere : idsOf (deliveredFrom reveal data call name) (utf8 name) call.group =
          (unread reveal data call name).map Prod.fst := by
        simp [idsOf, deliveredFrom, filter_map, Function.comp_def]
      -- The other names differ, and so do their keys.
      have hrest : idsOf (names.flatMap (deliveredFrom reveal data call)) (utf8 name)
          call.group = [] := by
        rcases ih hnodup with hnone | ⟨other, hother, hkey, _, _⟩
        · exact hnone
        · exact absurd (utf8_injective hkey ▸ hother) hfresh
      refine .inr ⟨name, mem_cons_self, rfl, rfl, ?_⟩
      rw [hhere, hrest, append_nil]
    have hhere : idsOf (deliveredFrom reveal data call name) key group = [] := by
      unfold idsOf deliveredFrom
      rw [map_eq_nil_iff, filter_eq_nil_iff]
      intro d hd
      obtain ⟨e, _, rfl⟩ := mem_map.mp hd
      simp only [decide_eq_true_eq]
      exact fun heq => hmine ⟨heq.1, heq.2.symm⟩
    rw [hhere]
    rcases ih hnodup with hnone | ⟨other, hother, hfound⟩
    · exact .inl hnone
    · exact .inr ⟨other, mem_cons_of_mem _ hother, hfound⟩

theorem idsOf_forget_self (log : List Delivery) (key : Bytes) (group : Str) :
    idsOf (forget log key group) key group = [] := by
  unfold idsOf forget
  rw [map_eq_nil_iff, filter_eq_nil_iff]
  intro d hd
  have hother := (mem_filter.mp hd).2
  simp only [decide_eq_true_eq] at hother ⊢
  exact hother

/-! ## The invariant -/

/-- What the deliveries and the cursors keep to: what a group that exists has delivered lies at or
before its cursor, and it was delivered in order. -/
structure Sound (s : GroupState) : Prop where
  lasting : AllLasting s.data
  behind : ∀ key group last, cursor s.data key group = some last →
    ∀ id ∈ idsOf s.log key group, id ≤ last
  once : ∀ key group, DeliveredOnce s.log key group

theorem sound_noGroups : Sound noGroups where
  lasting := fun _ => .missing
  behind := fun _ _ _ h => by cases h
  once := fun _ _ => Pairwise.nil

theorem Sound.stored {s : GroupState} (h : Sound s) {key : Bytes}
    (hkeeps : Keeps (s.data.lookup key) slot) :
    Sound { s with data := setSlot s.data key slot } where
  lasting := h.lasting.setSlot key hkeeps.lasting
  behind := fun other group last hlast => h.behind other group last (cursor_setSlot hkeeps hlast)
  once := h.once

/-! ### Creating a group -/

theorem lasting_ensureStream (h : Lasting slot) (now : Instant) :
    Lasting (some (ensureStream slot now)) ∧
      started (some (ensureStream slot now)) = started slot := by
  cases h with
  | missing => exact ⟨.stream empty Pairwise.nil, rfl⟩
  | stream stream hstream => exact ⟨.stream stream hstream, rfl⟩

/-- A new group is the only one whose cursor changes. -/
theorem xgroupCreate_spec (h : Lasting slot) (now : Instant) (group id : Str) (mkstream : Bool) :
    let out := xgroupCreate slot now group id mkstream
    Lasting out.1 ∧ ∀ name found, (started out.1).groups.lookup name = some found →
      (started slot).groups.lookup name = some found ∨ (name = group ∧ out.2 = .ok ()) := by
  unfold xgroupCreate
  have hensured : Lasting (if mkstream then some (ensureStream slot now) else slot) ∧
      started (if mkstream then some (ensureStream slot now) else slot) = started slot := by
    split
    · exact lasting_ensureStream h now
    · exact ⟨h, rfl⟩
  obtain ⟨hlasting, hstarted⟩ := hensured
  rw [← hstarted]
  generalize (if mkstream then some (ensureStream slot now) else slot) = ensured at hlasting
  constructor
  · apply lasting_withStream hlasting
    intro stream hstream
    split
    · exact hstream
    · exact hstream
  · intro name found hfound
    cases hlasting with
    | missing => cases hfound
    | stream stream hstream =>
      simp only [withStream, live, Entry.isExpiredAt, Bool.false_eq_true, if_false,
        Option.map_some] at hfound ⊢
      by_cases hbusy : (stream.groups.lookup group).isSome
      · rw [if_pos hbusy] at hfound
        exact .inl hfound
      · rw [if_neg hbusy] at hfound ⊢
        by_cases hname : name = group
        · exact .inr ⟨hname, rfl⟩
        · refine .inl ?_
          rw [← hfound]
          exact (lookup_put_of_ne stream.groups _ hname).symm

theorem Sound.create {s : GroupState} (h : Sound s) (key : Bytes) (group id : Str) (mkstream : Bool)
    (now : Instant) {result : Except String Unit}
    (hcreate : xgroupCreate (s.data.lookup key) now group id mkstream = (slot, result))
    {log : List Delivery} (hforgets : result = .ok () → idsOf log key group = [])
    (hlog : ∀ other name, (idsOf log other name).Sublist (idsOf s.log other name)) :
    Sound ⟨setSlot s.data key slot, log⟩ := by
  obtain ⟨hlasting, hcursors⟩ := xgroupCreate_spec (h.lasting key) now group id mkstream
  rw [hcreate] at hlasting hcursors
  refine ⟨h.lasting.setSlot key hlasting, ?_, ?_⟩
  · intro other name last hlast delivered hdelivered
    have hbefore := (hlog other name).subset hdelivered
    by_cases hother : other = key
    · subst hother
      obtain ⟨found, hfound, hid⟩ := cursor_eq_some.mp hlast
      rw [lookup_setSlot_self] at hfound
      rcases hcursors name found hfound with hsame | ⟨hname, hok⟩
      · exact h.behind other name last (cursor_eq_some.mpr ⟨found, hsame, hid⟩) delivered hbefore
      · rw [hname, hforgets hok] at hdelivered
        cases hdelivered
    · unfold cursor at hlast
      rw [lookup_setSlot_of_ne s.data slot hother] at hlast
      exact h.behind other name last hlast delivered hbefore
  · intro other name
    exact Pairwise.sublist (hlog other name) (h.once other name)

/-! ### Reading for a group -/

section Read

variable {reveal : Bytes → Fields → Fields} {s : GroupState} {call : GroupRead}
  {parts : List (List (Str × StreamEntries) × List ReadEffect)}

/-- A cursor that moved lies at or after all that was unread in its stream. -/
theorem unread_le_moved (hdata : AllLasting s.data)
    (hplan : List.Forall₂ (Planned reveal s.data call) call.streams parts)
    {effect : ReadEffect} (heffect : effect ∈ parts.flatMap Prod.snd) {name : Str}
    {last : StreamId} (hmoves : Moves (utf8 name) effect last) :
    name ∈ namedNew call.streams ∧ last ∈ (unread reveal s.data call name).map Prod.fst ∧
      ∀ id ∈ (unread reveal s.data call name).map Prod.fst, id ≤ last := by
  obtain ⟨found, hfound, hname, entry, hentry, rfl⟩ := moves_of_planned hplan heffect hmoves
  rw [utf8_injective hname] at hfound hentry
  have hlast : ((unread reveal s.data call name).map Prod.fst).getLast? = some entry.1 := by
    rw [getLast?_map, hentry]
    rfl
  refine ⟨hfound, mem_of_getLast? hlast, ?_⟩
  intro id hid
  exact le_getLast (unread_increases reveal hdata call name) hlast hid

/-- All that was delivered before lies before what is unread. -/
theorem Sound.delivered_lt_unread (h : Sound s) {name : Str}
    (hwrap : ∀ last ∈ cursor s.data (utf8 name) call.group,
      ¬ rereads (started (s.data.lookup (utf8 name))) last)
    {delivered id : StreamId} (hdelivered : delivered ∈ idsOf s.log (utf8 name) call.group)
    (hid : id ∈ (unread reveal s.data call name).map Prod.fst) : delivered < id := by
  obtain ⟨last, hlast, hlt⟩ := cursor_lt_of_mem_unread hwrap hid
  exact lt_of_le_of_lt (h.behind _ _ _ hlast _ hdelivered) hlt

/-- The streams that contribute nothing can be left out of the deliveries. -/
theorem flatMap_hasUnread {names : List Str}
    (hwrap : ∀ key ∈ names, ∀ last ∈ cursor s.data (utf8 key) call.group,
      ¬ rereads (started (s.data.lookup (utf8 key))) last) :
    names.flatMap (deliveredFrom reveal s.data call) =
      (names.filter (hasUnread s.data call.group)).flatMap (deliveredFrom reveal s.data call) := by
  induction names with
  | nil => rfl
  | cons name names ih =>
    obtain ⟨hname, hnames⟩ := forall_mem_cons.mp hwrap
    rw [flatMap_cons, ih hnames, filter_cons]
    split
    · rw [flatMap_cons]
    rename_i hnot
    have hnone : unread reveal s.data call name = [] := by
      by_contra hsome
      exact hnot (hasUnread_of_unread hname hsome)
    simp [deliveredFrom, hnone]

/-- **A read for a group keeps the invariant**, whether its effects succeed or fail on the way. -/
theorem Sound.read (h : Sound s) (now appliedAt : Instant)
    (hplan : List.Forall₂ (Planned reveal s.data call) call.streams parts)
    (hapart : ((namedNew call.streams).filter (hasUnread s.data call.group)).Nodup)
    (hwrap : ∀ key ∈ namedNew call.streams, ∀ last ∈ cursor s.data (utf8 key) call.group,
      ¬ rereads (started (s.data.lookup (utf8 key))) last)
    {data : List (Bytes × Entry)} {result : Except String Unit}
    (happly : applyEffects now appliedAt call s.data (parts.flatMap Prod.snd) = (data, result)) :
    Sound ⟨data, s.log⟩ ∧
      (result = .ok () → Sound ⟨data, s.log ++ deliveriesOf call (parts.map Prod.fst)⟩) := by
  obtain ⟨hlasting, hcursors⟩ :=
    applyEffects_spec now appliedAt call (parts.flatMap Prod.snd) h.lasting
  rw [happly] at hlasting hcursors
  have hbehind : ∀ key group last, cursor data key group = some last →
      ∀ id ∈ idsOf s.log key group, id ≤ last := by
    intro key group last hlast id hid
    rcases hcursors key group last hlast with ⟨rfl, effect, heffect, hmoves⟩ | ⟨hbefore, _⟩
    · have hkey : ∃ name, utf8 name = key := by
        obtain ⟨name, _, _, _, hname⟩ := hmoves
        exact ⟨name, hname⟩
      obtain ⟨name, rfl⟩ := hkey
      obtain ⟨hnamed, hmem, _⟩ := unread_le_moved h.lasting hplan heffect hmoves
      exact le_of_lt (h.delivered_lt_unread (hwrap _ hnamed) hid hmem)
    · exact h.behind key group last hbefore id hid
  refine ⟨⟨hlasting, hbehind, h.once⟩, ?_⟩
  intro hok
  have hnew : deliveriesOf call (parts.map Prod.fst) =
      ((namedNew call.streams).filter (hasUnread s.data call.group)).flatMap
        (deliveredFrom reveal s.data call) :=
    (deliveries_of_planned hplan).trans (flatMap_hasUnread hwrap)
  rw [hnew]
  refine ⟨hlasting, ?_, ?_⟩
  · intro key group last hlast id hid
    rw [idsOf_append, mem_append] at hid
    rcases hid with hold | hnewly
    · exact hbehind key group last hlast id hold
    rcases idsOf_delivered reveal s.data call key group hapart with
      hnone | ⟨name, hname, rfl, rfl, hids⟩
    · rw [hnone] at hnewly
      cases hnewly
    · rw [hids] at hnewly
      have hnamed := (mem_filter.mp hname).1
      have hsome : unread reveal s.data call name ≠ [] := by
        intro hnil
        rw [hnil] at hnewly
        cases hnewly
      obtain ⟨moved, hmoved, other, hother⟩ := planned_moves hplan hnamed hsome
      rcases hcursors _ _ last hlast with ⟨_, effect, heffect, hmoves⟩ | ⟨_, hstill⟩
      · exact (unread_le_moved h.lasting hplan heffect hmoves).2.2 id hnewly
      · exact absurd hother (hstill hok rfl moved hmoved other)
  · intro key group
    unfold DeliveredOnce
    rw [idsOf_append]
    rcases idsOf_delivered reveal s.data call key group hapart with
      hnone | ⟨name, hname, rfl, rfl, hids⟩
    · rw [hnone, append_nil]
      exact h.once key group
    · rw [hids, pairwise_append]
      have hnamed := (mem_filter.mp hname).1
      refine ⟨h.once _ _, unread_increases reveal h.lasting call name, ?_⟩
      intro delivered hdelivered id hid
      exact h.delivered_lt_unread (hwrap name hnamed) hdelivered hid

end Read

/-- **Every command keeps the invariant** when it reads apart. -/
theorem sound_groupStep (reveal : Bytes → Fields → Fields) (s : GroupState)
    (op : GroupCommandOn × Clock) (hop : ReadsApart s op) (h : Sound s) :
    Sound (groupStep reveal s op) := by
  obtain ⟨command, clock⟩ := op
  cases command with
  | slot key command => exact h.stored (keeps_run reveal key (h.lasting key) clock command)
  | create key group id mkstream =>
    rcases hcreate : xgroupCreate (s.data.lookup key) clock.now group id mkstream with
      ⟨slot, result⟩
    cases result with
    | error message =>
      simp only [groupStep, hcreate]
      refine h.create key group id mkstream clock.now hcreate (fun hok => by cases hok) ?_
      intro other name
      exact .refl _
    | ok _ =>
      simp only [groupStep, hcreate]
      refine h.create key group id mkstream clock.now hcreate ?_ ?_
      · intro _
        exact idsOf_forget_self s.log key group
      · intro other name
        exact (filter_sublist.filter _).map _
  | xreadgroup call =>
    obtain ⟨hapart, hwrap⟩ := hop
    cases hpreview : previewXreadgroup reveal s.data clock.now call with
    | error message =>
      simp only [groupStep, Streams.xreadgroup, hpreview]
      exact h
    | ok parts =>
      have hplan := (forall₂_of_mapM_eq_ok hpreview).imp fun _ _ hpart =>
        planned_previewOne h.lasting hpart
      rcases happly : applyEffects clock.now clock.appliedAt call s.data
        (parts.flatMap Prod.snd) with ⟨data, result⟩
      have hread := h.read clock.now clock.appliedAt hplan hapart hwrap happly
      cases result with
      | error message =>
        simp only [groupStep, Streams.xreadgroup, hpreview, happly]
        exact hread.1
      | ok _ =>
        simp only [groupStep, Streams.xreadgroup, hpreview, happly]
        exact hread.2 rfl

/-- **A group delivers each entry at most once, in increasing order**, along every run whose reads
are apart. -/
theorem delivered_once (reveal : Bytes → Fields → Fields) (ops : List (GroupCommandOn × Clock))
    (hapart : Runs.Safe (groupStep reveal) ReadsApart noGroups ops) (key : Bytes) (group : Str) :
    DeliveredOnce (Runs.run (groupStep reveal) noGroups ops).log key group :=
  (Runs.invariant (sound_groupStep reveal) hapart sound_noGroups).once key group

def atStart : Clock := ⟨0, 0, 0⟩

/-- One entry, and a group that begins before it. -/
def oneEntry (id : String) : List (GroupCommandOn × Clock) :=
  [(.slot (utf8 (str "s")) (.xadd (str id) [] none 0), atStart),
    (.create (utf8 (str "s")) (str "g") (str "0") false, atStart)]

def readNew (streams : List (Str × Str)) : GroupCommandOn × Clock :=
  (.xreadgroup ⟨str "g", str "c", streams, none, false⟩, atStart)

/-- A second read finds nothing new. -/
theorem delivered_once_reread :
    DeliveredOnce
      (Runs.run (groupStep fun _ fields => fields) noGroups
        (oneEntry "1-0" ++
          [readNew [(str "s", str ">")], readNew [(str "s", str ">")]])).log
      (utf8 (str "s")) (str "g") := by
  apply delivered_once
  refine ⟨trivial, trivial, ⟨?_, ?_⟩, ⟨?_, ?_⟩, trivial⟩
  · decide +kernel
  · unfold rereads
    decide +kernel
  · decide +kernel
  · unfold rereads
    decide +kernel

/-- A stream named twice is delivered twice, and so is an entry with the largest sequence number
that is read twice. -/
theorem delivered_twice :
    idsOf (Runs.run (groupStep fun _ fields => fields) noGroups
        (oneEntry "1-0" ++ [readNew [(str "s", str ">"), (str "s", str ">")]])).log
        (utf8 (str "s")) (str "g") = [⟨1, 0⟩, ⟨1, 0⟩] ∧
      idsOf (Runs.run (groupStep fun _ fields => fields) noGroups
        (oneEntry "1-18446744073709551615" ++
          [readNew [(str "s", str ">")], readNew [(str "s", str ">")]])).log
        (utf8 (str "s")) (str "g") = [⟨1, 0xffffffffffffffff⟩, ⟨1, 0xffffffffffffffff⟩] := by
  constructor
  · decide +kernel
  · decide +kernel

end Lux.Streams
