import Mathlib.Data.List.Nodup

/-!
# Keyed lists and fallible passes over them

A finite map is a list of key–value pairs, read with `List.lookup`. The module has the two
updates a store makes (set one key; change or remove the values under some keys) with what a
lookup sees afterwards, and the rules that take a successful `Except` computation apart.
-/

namespace KeyedList

open List

/-! ### Successful computations -/

section Except

variable {ε α β : Type}

/-- A sequence of two computations succeeds when both do. -/
theorem bind_eq_ok {x : Except ε α} {f : α → Except ε β} {b : β} :
    (x >>= f) = .ok b ↔ ∃ a, x = .ok a ∧ f a = .ok b := by
  cases x with
  | error e => exact ⟨fun h => (by cases h), fun ⟨a, ha, _⟩ => (by cases ha)⟩
  | ok a => exact ⟨fun h => ⟨a, rfl, h⟩, fun ⟨a', ha, h⟩ => (by cases ha; exact h)⟩

theorem map_eq_ok {x : Except ε α} {f : α → β} {b : β} :
    x.map f = .ok b ↔ ∃ a, x = .ok a ∧ f a = b := by
  cases x with
  | error e => exact ⟨fun h => (by cases h), fun ⟨a, ha, _⟩ => (by cases ha)⟩
  | ok a =>
    constructor
    · intro h; cases h; exact ⟨a, rfl, rfl⟩
    · rintro ⟨a', ha, rfl⟩; cases ha; rfl

variable {l : List α}

/-- A check of every element succeeds when it does on each. -/
theorem forM_eq_ok {f : α → Except ε Unit} : l.forM f = .ok ⟨⟩ ↔ ∀ a ∈ l, f a = .ok ⟨⟩ := by
  induction l with
  | nil => exact ⟨fun _ a ha => absurd ha not_mem_nil, fun _ => rfl⟩
  | cons a l ih =>
    have hdef : (a :: l).forM f = (f a >>= fun _ => l.forM f) := rfl
    rw [hdef, bind_eq_ok, forall_mem_cons]
    constructor
    · rintro ⟨⟨⟩, ha, hl⟩
      exact ⟨ha, ih.mp hl⟩
    · rintro ⟨ha, hl⟩
      exact ⟨⟨⟩, ha, ih.mpr hl⟩

/-- A pass that succeeds succeeds on each element, in order. -/
theorem forall₂_of_mapM_eq_ok {f : α → Except ε β} : ∀ {out : List β},
    l.mapM f = .ok out → List.Forall₂ (fun a b => f a = .ok b) l out := by
  induction l with
  | nil =>
    intro out h
    cases h
    exact .nil
  | cons a l ih =>
    intro out h
    rw [mapM_cons] at h
    obtain ⟨first, hfirst, h⟩ := bind_eq_ok.mp h
    obtain ⟨rest, hrest, h⟩ := bind_eq_ok.mp h
    cases h
    exact .cons hfirst (ih hrest)

/-- What is related element by element has a partner for each element. -/
theorem exists_of_forall₂ {R : α → β → Prop} {out : List β}
    (h : List.Forall₂ R l out) : ∀ a ∈ l, ∃ b ∈ out, R a b := by
  induction h with
  | nil => exact fun a ha => absurd ha not_mem_nil
  | @cons a b _ _ hab _ ih =>
    intro c hc
    rcases mem_cons.mp hc with rfl | hc
    · exact ⟨b, mem_cons_self, hab⟩
    · obtain ⟨d, hd, hcd⟩ := ih c hc
      exact ⟨d, mem_cons_of_mem b hd, hcd⟩

end Except

/-! ### Setting a key -/

variable {κ ν ε : Type} [BEq κ] [LawfulBEq κ]

/-- The list with a key set to a value. -/
def set (l : List (κ × ν)) (k : κ) (v : ν) : List (κ × ν) := (k, v) :: l.filter (·.1 != k)

@[simp] theorem lookup_set_self (l : List (κ × ν)) (k : κ) (v : ν) :
    (set l k v).lookup k = some v := by
  simp [set]

/-- Other pairs are looked up as if the filter that keeps them were not there. -/
theorem lookup_filter_key (p : κ → Bool) (l : List (κ × ν)) (k : κ) :
    (l.filter (fun r => p r.1)).lookup k = if p k then l.lookup k else none := by
  induction l with
  | nil => simp
  | cons r l ih =>
    obtain ⟨k', v⟩ := r
    by_cases hk : k = k'
    · subst hk
      by_cases hp : p k = true
      · simp [hp]
      · simp [hp, ih]
    · have hne : (k == k') = false := beq_false_of_ne hk
      by_cases hp : p k' = true
      · simp [hp, lookup_cons, hne, ih]
      · simp [hp, lookup_cons, hne, ih]

variable {k k' : κ}

@[simp] theorem lookup_set_of_ne (l : List (κ × ν)) (v : ν) (h : k' ≠ k) :
    (set l k v).lookup k' = l.lookup k' := by
  have hfilter := lookup_filter_key (fun x => x != k) l k'
  rw [set, lookup_cons, beq_false_of_ne h, hfilter, if_pos (bne_iff_ne.mpr h)]

/-- Set each listed key to what its entry is encoded as; the first failure is the outcome. -/
def setEach {α : Type} (encode : κ × α → Except ε ν) :
    List (κ × α) → List (κ × ν) → Except ε (List (κ × ν))
  | [], m => .ok m
  | p :: l, m => do
    let w ← encode p
    setEach encode l (set m p.1 w)

/-- After the pass a key that is not listed has its value, and a listed one the encoded entry. -/
theorem lookup_setEach {α : Type} {encode : κ × α → Except ε ν} {l : List (κ × α)}
    (hdistinct : (l.map Prod.fst).Nodup) : ∀ {m m' : List (κ × ν)},
    setEach encode l m = .ok m' →
      (∀ k, k ∉ l.map Prod.fst → m'.lookup k = m.lookup k) ∧
        ∀ p ∈ l, ∃ w, encode p = .ok w ∧ m'.lookup p.1 = some w := by
  induction l with
  | nil =>
    intro m m' h
    cases h
    exact ⟨fun _ _ => rfl, fun p hp => absurd hp not_mem_nil⟩
  | cons p l ih =>
    intro m m' h
    rw [map_cons, nodup_cons] at hdistinct
    obtain ⟨w, hw, hrest⟩ := bind_eq_ok.mp h
    obtain ⟨hother, hlisted⟩ := ih hdistinct.2 hrest
    refine ⟨?_, ?_⟩
    · intro k hk
      rw [map_cons, mem_cons, not_or] at hk
      rw [hother k hk.2, lookup_set_of_ne m w hk.1]
    · intro q hq
      rcases mem_cons.mp hq with rfl | hq
      · exact ⟨w, hw, by rw [hother _ hdistinct.1, lookup_set_self]⟩
      · exact hlisted q hq

variable {v : ν} {l : List (κ × ν)}

theorem mem_of_lookup (h : l.lookup k = some v) : (k, v) ∈ l := by
  obtain ⟨l₁, l₂, rfl, -⟩ := lookup_eq_some_iff.mp h
  exact mem_append_right l₁ mem_cons_self

/-- The first entry with a key is the one a lookup finds. -/
theorem find?_eq_lookup (l : List (κ × ν)) (k : κ) :
    l.find? (·.1 == k) = (l.lookup k).map fun v => (k, v) := by
  induction l with
  | nil => rfl
  | cons p l ih =>
    obtain ⟨a, v⟩ := p
    by_cases h : a = k
    · subst h
      simp
    · simp [h, List.lookup_cons, beq_false_of_ne (Ne.symm h), ih]

theorem not_mem_keys_of_lookup (h : l.lookup k = none) : k ∉ l.map Prod.fst := by
  intro hk
  obtain ⟨p, hp, rfl⟩ := mem_map.mp hk
  have hne := lookup_eq_none_iff.mp h p hp
  rw [bne_self_eq_false] at hne
  cases hne

/-! ### Changing the values under some keys -/

/-- Apply a change to the values whose keys are listed; the first failure is the outcome. -/
def mapAt (keys : List κ) (change : κ → ν → Except ε ν) :
    List (κ × ν) → Except ε (List (κ × ν))
  | [] => .ok []
  | (k, v) :: rest => do
    let w ← (if k ∈ keys then change k v else .ok v : Except ε ν)
    let rest' ← mapAt keys change rest
    .ok ((k, w) :: rest')

variable {keys : List κ} {change : κ → ν → Except ε ν}

/-- A successful pass over a pair and the rest. -/
theorem mapAt_cons_eq_ok {rest out : List (κ × ν)} :
    mapAt keys change ((k, v) :: rest) = .ok out ↔
      ∃ w rest', (if k ∈ keys then change k v else .ok v) = .ok w ∧
        mapAt keys change rest = .ok rest' ∧ out = (k, w) :: rest' := by
  have hdef : mapAt keys change ((k, v) :: rest) =
      ((if k ∈ keys then change k v else .ok v : Except ε ν) >>= fun w =>
        mapAt keys change rest >>= fun rest' => .ok ((k, w) :: rest')) := by
    by_cases hk : k ∈ keys
    · simp [mapAt]
    · simp [mapAt]
  rw [hdef, bind_eq_ok]
  constructor
  · rintro ⟨w, hw, h⟩
    obtain ⟨rest', hrest, hout⟩ := bind_eq_ok.mp h
    cases hout
    exact ⟨w, rest', hw, hrest, rfl⟩
  · rintro ⟨w, rest', hw, hrest, rfl⟩
    exact ⟨w, hw, bind_eq_ok.mpr ⟨rest', hrest, rfl⟩⟩

theorem mapAt_keys : ∀ {out : List (κ × ν)},
    mapAt keys change l = .ok out → out.map Prod.fst = l.map Prod.fst := by
  induction l with
  | nil => intro out h; cases h; rfl
  | cons r rest ih =>
    intro out h
    obtain ⟨w, rest', _, hrest, rfl⟩ := mapAt_cons_eq_ok.mp h
    rw [map_cons, map_cons, ih hrest]

/-- After a pass, a key not listed has its value and a listed one the changed value. -/
theorem lookup_mapAt (hv : l.lookup k = some v) :
    ∀ {out : List (κ × ν)}, mapAt keys change l = .ok out →
    ∃ w, (if k ∈ keys then change k v else .ok v) = .ok w ∧ out.lookup k = some w := by
  induction l with
  | nil => cases hv
  | cons r rest ih =>
    obtain ⟨k', v'⟩ := r
    intro out h
    obtain ⟨w, rest', hw, hrest, rfl⟩ := mapAt_cons_eq_ok.mp h
    by_cases hk : k = k'
    · subst hk
      rw [lookup_cons_self] at hv
      cases hv
      exact ⟨w, hw, lookup_cons_self⟩
    · rw [lookup_cons, beq_false_of_ne hk] at hv
      obtain ⟨u, hu, hlook⟩ := ih hv hrest
      refine ⟨u, hu, ?_⟩
      rw [lookup_cons, beq_false_of_ne hk]
      exact hlook

/-! ### Maps in insertion order -/

/-- Put a value under a key: in place if the key is there, at the end if not. -/
def put (l : List (κ × ν)) (k : κ) (v : ν) : List (κ × ν) :=
  if (l.lookup k).isSome then l.map (fun p => if p.1 == k then (k, v) else p) else l ++ [(k, v)]

/-- The map that a list of pairs builds, later pairs replacing earlier ones. -/
def ofPairs (pairs : List (κ × ν)) : List (κ × ν) :=
  pairs.foldl (fun l p => put l p.1 p.2) []

/-- Put a value under a key that has none. -/
def orPut (l : List (κ × ν)) (k : κ) (v : ν) : List (κ × ν) :=
  if (l.lookup k).isSome then l else l ++ [(k, v)]

/-- Change the value under one key. -/
def modify (l : List (κ × ν)) (k : κ) (f : ν → ν) : List (κ × ν) :=
  l.map fun p => if p.1 == k then (p.1, f p.2) else p

theorem lookup_isSome_iff : (l.lookup k).isSome ↔ k ∈ l.map Prod.fst := by
  constructor
  · intro h
    obtain ⟨v, hv⟩ := Option.isSome_iff_exists.mp h
    exact mem_map.mpr ⟨(k, v), mem_of_lookup hv, rfl⟩
  · intro h
    rw [Option.isSome_iff_ne_none]
    exact fun hnone => not_mem_keys_of_lookup hnone h

theorem put_of_not_mem (v : ν) (h : k ∉ l.map Prod.fst) : put l k v = l ++ [(k, v)] := by
  rw [put, if_neg (fun hsome => h (lookup_isSome_iff.mp hsome))]

theorem lookup_put_self (l : List (κ × ν)) (k : κ) (v : ν) : (put l k v).lookup k = some v := by
  by_cases h : (l.lookup k).isSome
  · rw [put, if_pos h]
    induction l with
    | nil => simp at h
    | cons p l ih =>
      obtain ⟨k', v'⟩ := p
      by_cases hk : k = k'
      · subst hk
        simp
      · have hne : (k' == k) = false := beq_false_of_ne (Ne.symm hk)
        rw [lookup_cons, beq_false_of_ne hk] at h
        simp only [map_cons, hne, Bool.false_eq_true, if_false, lookup_cons, beq_false_of_ne hk]
        exact ih h
  · rw [put, if_neg h, lookup_append]
    rw [Option.not_isSome_iff_eq_none] at h
    simp [h]

theorem lookup_put_of_ne (l : List (κ × ν)) (v : ν) (hne : k' ≠ k) :
    (put l k v).lookup k' = l.lookup k' := by
  have hne' : (k' == k) = false := beq_false_of_ne hne
  by_cases h : (l.lookup k).isSome
  · rw [put, if_pos h]
    clear h
    induction l with
    | nil => rfl
    | cons p l ih =>
      obtain ⟨k₁, v₁⟩ := p
      by_cases hp : k₁ = k
      · subst hp
        simp [lookup_cons, hne', ih]
      · simp [lookup_cons, beq_false_of_ne hp, ih]
  · rw [put, if_neg h, lookup_append]
    simp [lookup_cons, hne']

/-- A list without a repeated key is the map it builds. -/
theorem ofPairs_of_nodup (h : (l.map Prod.fst).Nodup) : ofPairs l = l := by
  -- Generalised to a map built so far whose keys do not occur any more.
  suffices hacc : ∀ acc : List (κ × ν), ((acc ++ l).map Prod.fst).Nodup →
      l.foldl (fun l p => put l p.1 p.2) acc = acc ++ l from
    hacc [] (by simpa using h)
  clear h
  induction l with
  | nil => simp
  | cons p l ih =>
    intro acc hnodup
    have hnot : p.1 ∉ acc.map Prod.fst := by
      simp only [map_append, nodup_append] at hnodup
      intro hmem
      exact hnodup.2.2 p.1 hmem p.1 mem_cons_self rfl
    have happend : acc ++ [p] ++ l = acc ++ p :: l := by simp
    rw [foldl_cons, put_of_not_mem p.2 hnot, ih _ (by rw [happend]; exact hnodup), happend]

omit [LawfulBEq κ] in
theorem mem_put {p : κ × ν} (h : p ∈ put l k v) : p = (k, v) ∨ p ∈ l := by
  unfold put at h
  split at h
  · obtain ⟨q, hq, rfl⟩ := mem_map.mp h
    by_cases hk : q.1 == k
    · exact .inl (if_pos hk)
    · rw [if_neg hk]
      exact .inr hq
  · rcases mem_append.mp h with h | h
    · exact .inr h
    · exact .inl (mem_singleton.mp h)

theorem nodup_put (h : (l.map Prod.fst).Nodup) (k : κ) (v : ν) :
    ((put l k v).map Prod.fst).Nodup := by
  by_cases hk : (l.lookup k).isSome
  · have hkeys : (put l k v).map Prod.fst = l.map Prod.fst := by
      rw [put, if_pos hk, map_map]
      refine map_congr_left fun p _ => ?_
      by_cases hp : p.1 == k
      · simp [eq_of_beq hp]
      · simp [hp]
    rwa [hkeys]
  · have hnot : k ∉ l.map Prod.fst := fun hmem => hk (lookup_isSome_iff.mpr hmem)
    rw [put_of_not_mem v hnot, map_append, nodup_append]
    refine ⟨h, by simp, ?_⟩
    intro a ha b hb hab
    rw [map_singleton, mem_singleton] at hb
    subst hab hb
    exact hnot ha

/-- The map without a key. -/
def erase (l : List (κ × ν)) (k : κ) : List (κ × ν) := l.filter fun p => p.1 != k

theorem lookup_erase_self (l : List (κ × ν)) (k : κ) : (erase l k).lookup k = none := by
  rw [erase, lookup_filter_key (fun x => x != k)]
  simp

theorem lookup_erase_of_ne (l : List (κ × ν)) (h : k' ≠ k) :
    (erase l k).lookup k' = l.lookup k' := by
  rw [erase, lookup_filter_key (fun x => x != k), if_pos (bne_iff_ne.mpr h)]

omit [LawfulBEq κ] in
theorem nodup_erase (h : (l.map Prod.fst).Nodup) (k : κ) : ((erase l k).map Prod.fst).Nodup :=
  h.sublist (filter_sublist.map Prod.fst)

/-- In a map, a pair is what its key is looked up as. -/
theorem lookup_of_mem (h : (l.map Prod.fst).Nodup) (hmem : (k, v) ∈ l) : l.lookup k = some v := by
  obtain ⟨before, after, rfl⟩ := append_of_mem hmem
  rw [map_append, nodup_append] at h
  refine lookup_eq_some_iff.mpr ⟨before, after, rfl, fun p hp => ?_⟩
  rw [bne_iff_ne]
  exact fun heq => h.2.2 p.1 (mem_map_of_mem hp) k mem_cons_self heq.symm

/-- What a filter by values leaves of a list with each key once. -/
theorem lookup_filter_value (h : (l.map Prod.fst).Nodup) (p : ν → Bool) (k : κ) :
    (l.filter fun q => p q.2).lookup k = (l.lookup k).filter p := by
  induction l with
  | nil => rfl
  | cons q l ih =>
    obtain ⟨a, w⟩ := q
    rw [map_cons, nodup_cons] at h
    have hrest := ih h.2
    by_cases hk : k = a
    · subst hk
      have hnone : l.lookup k = none := by
        rw [← Option.not_isSome_iff_eq_none, lookup_isSome_iff]
        exact h.1
      rw [hnone] at hrest
      by_cases hp : p w = true
      · simp [hp, Option.filter_some]
      · simp [hp, hrest, Option.filter_some]
    · by_cases hp : p w = true
      · simp [hp, lookup_cons, beq_false_of_ne hk, hrest]
      · simp [hp, lookup_cons, beq_false_of_ne hk, hrest]

theorem mem_keys_put : k' ∈ (put l k v).map Prod.fst ↔ k' = k ∨ k' ∈ l.map Prod.fst := by
  rw [← lookup_isSome_iff]
  by_cases h : k' = k
  · simp [h, lookup_put_self]
  · simp [h, lookup_put_of_ne l v h]

theorem put_ne_nil (l : List (κ × ν)) (k : κ) (v : ν) : put l k v ≠ [] := by
  intro h
  have hmem : k ∈ (put l k v).map Prod.fst := mem_keys_put.mpr (.inl rfl)
  rw [h] at hmem
  cases hmem

/-- Putting what is there changes nothing. -/
theorem put_eq_self (hdistinct : (l.map Prod.fst).Nodup) (h : l.lookup k = some v) :
    put l k v = l := by
  rw [put, h, Option.isSome_some]
  refine (map_congr_left fun p hp => ?_).trans (map_id l)
  obtain ⟨k', w⟩ := p
  by_cases hk : k' = k
  · subst hk
    rw [lookup_of_mem hdistinct hp, Option.some.injEq] at h
    simp [h]
  · simp [hk]

/-- Values that are computed from their keys are looked up and computed. -/
theorem lookup_map_values {μ : Type} (f : κ → ν → μ) (l : List (κ × ν)) (k : κ) :
    (l.map fun p => (p.1, f p.1 p.2)).lookup k = (l.lookup k).map (f k) := by
  induction l with
  | nil => rfl
  | cons p l ih =>
    obtain ⟨k', v⟩ := p
    by_cases hk : k = k'
    · subst hk
      simp
    · simp [lookup_cons, beq_false_of_ne hk, ih]

omit [LawfulBEq κ] in
/-- A map of pairs has no others. -/
theorem mem_ofPairs {pairs : List (κ × ν)} {p : κ × ν} (h : p ∈ ofPairs pairs) : p ∈ pairs := by
  suffices hacc : ∀ acc : List (κ × ν),
      p ∈ pairs.foldl (fun acc q => put acc q.1 q.2) acc → p ∈ acc ∨ p ∈ pairs by
    rcases hacc [] h with hnil | hmem
    · cases hnil
    · exact hmem
  clear h
  induction pairs with
  | nil => exact fun acc h => .inl h
  | cons q pairs ih =>
    intro acc h
    rcases ih _ h with hput | hmem
    · rcases mem_put hput with rfl | hold
      · exact .inr mem_cons_self
      · exact .inl hold
    · exact .inr (mem_cons_of_mem q hmem)

theorem nodup_ofPairs (pairs : List (κ × ν)) : ((ofPairs pairs).map Prod.fst).Nodup := by
  suffices hacc : ∀ acc : List (κ × ν), (acc.map Prod.fst).Nodup →
      ((pairs.foldl (fun acc q => put acc q.1 q.2) acc).map Prod.fst).Nodup from
    hacc [] nodup_nil
  induction pairs with
  | nil => exact fun _ h => h
  | cons q pairs ih => exact fun acc h => ih _ (nodup_put h q.1 q.2)

/-- Values that are computed from their keys, or dropped, are looked up and computed. -/
theorem lookup_filterMap_values {μ : Type} (f : κ → ν → Option μ) (l : List (κ × ν)) (k : κ)
    (hkeep : ∀ v w, (f k v).isSome = (f k w).isSome) :
    (l.filterMap fun p => (f p.1 p.2).map fun v => (p.1, v)).lookup k =
      (l.lookup k).bind (f k) := by
  induction l with
  | nil => rfl
  | cons p l ih =>
    obtain ⟨k', v⟩ := p
    by_cases hk : k = k'
    · subst hk
      cases hf : f k v with
      | some w => simp [hf]
      | none =>
        have hrest : (l.lookup k).bind (f k) = none := by
          cases hl : l.lookup k with
          | none => rfl
          | some w =>
            have hw := hkeep w v
            rw [hf] at hw
            simpa using hw
        simp [hf, ih, hrest]
    · cases hf : f k' v with
      | none | some w => simp [lookup_cons, beq_false_of_ne hk, hf, ih]

omit [LawfulBEq κ] in
theorem length_ofPairs_le (pairs : List (κ × ν)) : (ofPairs pairs).length ≤ pairs.length := by
  suffices hacc : ∀ acc : List (κ × ν),
      (pairs.foldl (fun acc q => put acc q.1 q.2) acc).length ≤ acc.length + pairs.length by
    simpa [ofPairs] using hacc []
  induction pairs with
  | nil => simp
  | cons q pairs ih =>
    intro acc
    have hput : (put acc q.1 q.2).length ≤ acc.length + 1 := by
      unfold put
      split <;> simp
    have hrest := ih (put acc q.1 q.2)
    rw [foldl_cons, length_cons]
    omega

omit [BEq κ] [LawfulBEq κ] in
/-- What a partial map keeps of a list has its keys among those of the list. -/
theorem filterMap_keys_sublist {α β : Type} {f : α → Option β} {key : β → κ} {key' : α → κ}
    (h : ∀ a b, f a = some b → key b = key' a) :
    ∀ l : List α, ((l.filterMap f).map key).Sublist (l.map key')
  | [] => .refl []
  | a :: l => by
      have hrest := filterMap_keys_sublist h l
      rw [filterMap_cons, map_cons]
      cases hf : f a with
      | none => exact hrest.cons _
      | some b =>
        rw [map_cons, h a b hf]
        exact hrest.cons_cons _

theorem orPut_of_mem (v : ν) (h : k ∈ l.map Prod.fst) : orPut l k v = l := by
  rw [orPut, if_pos (lookup_isSome_iff.mpr h)]

/-- A change that does nothing to the value under the key does nothing. -/
theorem modify_eq_self {f : ν → ν} (h : ∀ v, (k, v) ∈ l → f v = v) : modify l k f = l := by
  have hid : ∀ p ∈ l, (if p.1 == k then (p.1, f p.2) else p) = p := by
    intro p hp
    by_cases hk : p.1 == k
    · obtain rfl := eq_of_beq hk
      rw [if_pos hk, h p.2 hp]
    · rw [if_neg hk]
  rw [modify, map_congr_left hid, map_id']

end KeyedList
