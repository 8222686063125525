import Lux.ScoredAggregates

/-!
# Scores that are numbers

In keys whose scores are all numbers, `ZADD`, `ZDIFFSTORE` and `ZRANGESTORE` store numbers only.
`ZINCRBY` and the weighted commands store what is no number exactly where their arithmetic gives
none (`Ok`). The record of a computed set spells its scores out, and one with such a score is
refused when the journal is replayed.
-/

namespace Lux.ScoredSets

open KeyedList StdText List

/-! ## Keys that hold numbers -/

section Keys

variable {κ S M : Type} [DecidableEq κ] [LinearOrder S] [LinearOrder M]

/-- All scores are numbers. -/
def Numbers (entries : List (M × Score S)) : Prop := ∀ p ∈ entries, p.2 ≠ ⊤

/-- Every sorted set holds numbers only. -/
def NoNan (state : Sets κ S M) : Prop :=
  ∀ key z, state key = some (.zset z) → Numbers z.scores

/-- The trees and maps belong together, and every sorted set holds numbers only. -/
structure Sound (state : Sets κ S M) : Prop where
  consistent : ∀ key z, state key = some (.zset z) → Consistent z
  numbers : NoNan state

variable {state : Sets κ S M} {z : ZSet S M} {key : κ}

omit [LinearOrder S] [LinearOrder M] in
/-- What all sets have is kept when one set is written that has it. -/
theorem all_set {P : ZSet S M → Prop} (h : ∀ key z, state key = some (.zset z) → P z)
    (hz : P z) : ∀ key' z', state.set key z key' = some (.zset z') → P z' := by
  intro key' z' hheld
  by_cases hkey : key' = key
  · rw [Sets.set, hkey, Function.update_self, Option.some.injEq, Held.zset.injEq] at hheld
    rw [← hheld]
    exact hz
  · rw [Sets.set, Function.update_of_ne hkey] at hheld
    exact h key' z' hheld

omit [LinearOrder S] [LinearOrder M] in
theorem all_del {P : ZSet S M → Prop} (key : κ) (h : ∀ key z, state key = some (.zset z) → P z) :
    ∀ key' z', state.del key key' = some (.zset z') → P z' := by
  intro key' z' hheld
  by_cases hkey : key' = key
  · rw [Sets.del, hkey, Function.update_self] at hheld
    cases hheld
  · rw [Sets.del, Function.update_of_ne hkey] at hheld
    exact h key' z' hheld

omit [LinearOrder S] [LinearOrder M] in
/-- Whether a write brings in a NaN depends on the set written. -/
theorem noNan_set_iff (h : NoNan state) : NoNan (state.set key z) ↔ Numbers z.scores :=
  ⟨fun hset => hset key z (Function.update_self ..), all_set h⟩

/-- A write of a consistent set of numbers keeps the sets sound. -/
theorem sound_set (h : Sound state) (hz : Consistent z) (hnumbers : Numbers z.scores) :
    Sound (state.set key z) :=
  ⟨all_set h.consistent hz, all_set h.numbers hnumbers⟩

/-! ### Single sets -/

omit [LinearOrder S] [LinearOrder M] in
theorem numbers_empty : Numbers (ZSet.empty : ZSet S M).scores :=
  fun _ hp => absurd hp not_mem_nil

/-- A score comes from the set or from the command. -/
theorem zaddMember_scores (opts : ZaddOptions) (z : ZSet S M) (p : M × Score S) {q : M × Score S}
    (hq : q ∈ (zaddMember opts z p).1.scores) : q ∈ z.scores ∨ q = p := by
  unfold zaddMember at hq
  split at hq
  · split at hq
    · exact .inl hq
    · split at hq
      · exact (mem_put hq).symm
      · exact .inl hq
  · split at hq
    · exact .inl hq
    · exact (mem_put hq).symm

theorem zaddAll_scores (opts : ZaddOptions) (members : List (M × Score S)) :
    ∀ {z : ZSet S M} {q : M × Score S}, q ∈ (zaddAll opts z members).1.scores →
      q ∈ z.scores ∨ q ∈ members := by
  induction members with
  | nil => exact fun hq => .inl hq
  | cons p members ih =>
    intro z q hq
    rcases ih hq with hq | hq
    · rcases zaddMember_scores opts z p hq with hq | rfl
      · exact .inl hq
      · exact .inr mem_cons_self
    · exact .inr (mem_cons_of_mem p hq)

/-- `ZADD` of numbers leaves numbers. -/
theorem numbers_zadd {opts : ZaddOptions} {members : List (M × Score S)} (hz : Numbers z.scores)
    (hmembers : Numbers members) : Numbers (zadd opts z members).1.scores := by
  intro q hq
  rcases zaddAll_scores opts members hq with hq | hq
  · exact hz q hq
  · exact hmembers q hq

theorem scores_zincrby (arith : Arith S) (z : ZSet S M) (member : M) (increment : Score S) :
    (zincrby arith z member increment).1.scores =
      put z.scores member (arith.add ((z.scores.lookup member).getD arith.zero) increment) := rfl

variable {entries : List (M × Score S)}

omit [LinearOrder S] in
/-- One NaN more or less. -/
theorem numbers_put_iff (h : Numbers entries) (member : M) (score : Score S) :
    Numbers (put entries member score) ↔ score ≠ ⊤ := by
  constructor
  · exact fun hput => hput _ (mem_of_lookup (lookup_put_self entries member score))
  · intro hscore p hp
    rcases mem_put hp with rfl | hp
    · exact hscore
    · exact h p hp

omit [LinearOrder S] in
theorem numbers_iff_lookup (h : (entries.map Prod.fst).Nodup) :
    Numbers entries ↔ ∀ member score, entries.lookup member = some score → score ≠ ⊤ :=
  ⟨fun hn _ _ hlookup => hn _ (mem_of_lookup hlookup),
    fun hn p hp => hn p.1 p.2 (lookup_of_mem h hp)⟩

/-! ### Replaying a computed set -/

/-- Members that are new are added one after the other, by the plain options. -/
theorem zaddAll_fresh (entries : List (M × Score S)) :
    ∀ {z : ZSet S M}, (entries.map Prod.fst).Nodup →
      (∀ p ∈ entries, z.scores.lookup p.1 = none) →
      (zaddAll noOptions z entries).1 = entries.foldl (fun z p => z.add p.1 p.2) z := by
  induction entries with
  | nil => exact fun _ _ => rfl
  | cons p rest ih =>
    intro z hdistinct hfresh
    rw [map_cons, nodup_cons] at hdistinct
    have hadd : (zaddMember noOptions z p).1 = z.add p.1 p.2 := by
      simp [zaddMember, hfresh p mem_cons_self, noOptions]
    have hrest := ih (z := z.add p.1 p.2) hdistinct.2 fun q hq => by
      have hne : q.1 ≠ p.1 := fun hsame => hdistinct.1 (hsame ▸ mem_map_of_mem hq)
      change (put z.scores p.1 p.2).lookup q.1 = none
      rw [lookup_put_of_ne _ _ hne]
      exact hfresh q (mem_cons_of_mem p hq)
    rw [foldl_cons, ← hrest, ← hadd]
    rfl

theorem scores_foldl_add (entries : List (M × Score S)) : ∀ z : ZSet S M,
    (entries.foldl (fun z p => z.add p.1 p.2) z).scores =
      entries.foldl (fun l p => put l p.1 p.2) z.scores := by
  induction entries with
  | nil => exact fun _ => rfl
  | cons p rest ih => exact fun z => ih (z.add p.1 p.2)

/-- A computed set has the entries it was computed from. -/
theorem scores_computed (h : (entries.map Prod.fst).Nodup) : (computed entries).scores = entries :=
  (scores_foldl_add entries .empty).trans (ofPairs_of_nodup h)

theorem consistent_computed (h : (entries.map Prod.fst).Nodup) : Consistent (computed entries) :=
  consistent_foldl_add entries consistent_empty h fun _ _ => rfl

omit [LinearOrder S] [LinearOrder M] in
/-- Printed scores are read back, so a record replays to its members. -/
theorem mapM_parsePair (env : Env S) (entries : List (M × Score S)) :
    (entries.map fun p => (env.print p.2, p.1)).mapM (parsePair env) = .ok entries := by
  induction entries with
  | nil => rfl
  | cons p rest ih =>
    rw [map_cons, mapM_cons, ih, parsePair, env.parse_print]
    rfl

/-- Numbers are replayed as they were stored. -/
theorem replay_writeComputedZset (env : Env S) (state : Sets κ S M) (dst : κ)
    (hdistinct : (entries.map Prod.fst).Nodup) (hnumbers : Numbers entries) :
    replay env state (writeComputedZset env state dst entries).2 =
      .ok (writeComputedZset env state dst entries).1 := by
  unfold writeComputedZset
  split
  · rfl
  have hany : (entries.any fun p => isNan p.2) = false := by
    rw [any_eq_false]
    intro p hp
    simpa [isNan] using hnumbers p hp
  have hzadd : storeZadd noOptions (state.del dst) dst entries =
      .ok (state.set dst (computed entries)) := by
    have hempty : (state.del dst) dst = none := Function.update_self ..
    have hset : (zadd noOptions .empty entries).1 = computed entries :=
      zaddAll_fresh entries hdistinct fun _ _ => rfl
    have hkeys : (state.del dst).set dst (computed entries) = state.set dst (computed entries) :=
      Function.update_idem ..
    simp only [storeZadd, hany, hempty, hset, hkeys]
    rfl
  simp only [replay, foldlM_cons, foldlM_nil, replayRecord, mapM_parsePair, bind_pure]
  exact hzadd

variable {env : Env S}

/-- A computed set is stored and replayed as numbers exactly when it is one of numbers. -/
theorem writeComputedZset_iff (h : Sound state) (dst : κ)
    (hdistinct : (entries.map Prod.fst).Nodup) :
    (NoNan (writeComputedZset env state dst entries).1 ∧
      replay env state (writeComputedZset env state dst entries).2 =
        .ok (writeComputedZset env state dst entries).1) ↔ Numbers entries := by
  constructor
  · rintro ⟨hnumbers, -⟩
    unfold writeComputedZset at hnumbers
    split at hnumbers
    · rename_i hempty
      rw [hempty]
      exact fun p hp => absurd hp not_mem_nil
    · rw [← scores_computed hdistinct]
      exact (noNan_set_iff h.numbers).mp hnumbers
  · intro hnumbers
    refine ⟨?_, replay_writeComputedZset env state dst hdistinct hnumbers⟩
    unfold writeComputedZset
    split
    · exact all_del dst h.numbers
    · rw [noNan_set_iff h.numbers, scores_computed hdistinct]
      exact hnumbers

theorem consistent_writeComputedZset (h : Sound state) (dst : κ)
    (hdistinct : (entries.map Prod.fst).Nodup) :
    ∀ key z, (writeComputedZset env state dst entries).1 key = some (.zset z) → Consistent z := by
  unfold writeComputedZset
  split
  · exact all_del dst h.consistent
  · exact all_set h.consistent (consistent_computed hdistinct)

/-- `ZADD` keeps numbers, since it refuses anything else. -/
theorem sound_storeZadd (h : Sound state) {opts : ZaddOptions}
    {members : List (M × Score S)} {state' : Sets κ S M}
    (hok : storeZadd opts state key members = .ok state') : Sound state' := by
  unfold storeZadd at hok
  split at hok
  · cases hok
  split at hok
  · cases hok
  rename_i hany
  have hmembers : Numbers members := by
    intro p hp htop
    exact hany (any_eq_true.mpr ⟨p, hp, by simp [isNan, htop]⟩)
  split at hok
  · split at hok
    · cases hok
      exact h
    · cases hok
      exact sound_set h (consistent_zaddAll opts members consistent_empty)
        (numbers_zadd numbers_empty hmembers)
  · rename_i z hheld
    cases hok
    exact sound_set h (consistent_zaddAll opts members (h.consistent key z hheld))
      (numbers_zadd (h.numbers key z hheld) hmembers)
  · cases hok

/-- `ZINCRBY` fails on a NaN or a value of another type. -/
theorem storeZincrby_eq_error {member : M} {increment : Score S} {message : String}
    (herror : storeZincrby env.arith state key member increment = .error message) :
    increment = ⊤ ∨ state key = some .other := by
  unfold storeZincrby at herror
  split at herror
  · rename_i hnan
    exact .inl (by simpa [isNan] using hnan)
  · split at herror
    · cases herror
    · cases herror
    · rename_i hheld
      exact .inr hheld

end Keys

/-! ## The commands -/

section Commands

variable {κ S M : Type} [DecidableEq κ] [LinearOrder S] [LinearOrder M] [BoundedOrder S]

/-- The product of the score and the weight is no number. -/
def Vanishes (arith : Arith S) (f : Score S × Score S) : Prop :=
  Infinite f.1 ∧ f.2 = (arith.zero : Score S)

/-- The weighted scores of a member become a number. -/
def Aggregate.Adds (arith : Arith S) : Aggregate → List (Score S × Score S) → Prop
  | .sum, fs => (∀ f ∈ fs, ¬ Vanishes arith f) ∧
      ¬ ((∃ f ∈ fs, arith.mul f.1 f.2 = ((⊤ : S) : Score S)) ∧
        ∃ f ∈ fs, arith.mul f.1 f.2 = ((⊥ : S) : Score S))
  | .min, fs => ∃ f ∈ fs, ¬ Vanishes arith f
  | .max, fs => ∃ f ∈ fs, ¬ Vanishes arith f

/-- The condition under which a command stores numbers only. -/
def Ok (env : Env S) (state : Sets κ S M) : KeyCommand κ S M → Prop
  | .zincrby key member increment =>
    ∀ z old, state key = some (.zset z) → z.scores.lookup member = some old →
      ¬ Opposite old increment
  | .zunionstore _ keys weights aggregate =>
    ∀ sets, checkSources keys weights = .ok () →
      keys.mapM (collectSortedSet state) = .ok sets →
      ∀ member, factors (withWeights env.arith weights sets) member ≠ [] →
        aggregate.Adds env.arith (factors (withWeights env.arith weights sets) member)
  | .zinterstore _ keys weights aggregate =>
    ∀ sets, checkSources keys weights = .ok () →
      keys.mapM (collectSortedSet state) = .ok sets →
      ∀ member, inAll (withWeights env.arith weights sets) member = true →
        aggregate.Adds env.arith (factors (withWeights env.arith weights sets) member)
  | _ => True

/-- The command stops nothing, and unless it is refused it leaves numbers only and its records
replay to the same keys. -/
def Good [SuccOrder S] [OrderBot M] (env : Env S) (state : Sets κ S M)
    (command : KeyCommand κ S M) : Prop :=
  match execute env state command with
  | none => False
  | some (.error _) => True
  | some (.ok (state', records)) => NoNan state' ∧ replay env state records = .ok state'

/-! ### Weighted sources -/

variable {keys : List κ} {weights : List (Score S)}

omit [DecidableEq κ] in
/-- The checks leave keys, and weights that are finite. -/
theorem checkSources_eq_ok [DecidableEq κ] (h : checkSources keys weights = .ok ()) :
    keys ≠ [] ∧ ∀ w ∈ weights, w ≠ ⊤ ∧ ¬ Infinite w := by
  unfold checkSources at h
  split at h
  · cases h
  rename_i hkeys
  dsimp only at h
  split at h
  · cases h
  rename_i hweights
  split at h
  · cases h
  rename_i hwhole
  -- Nothing is left over behind the weights that were parsed.
  rw [Nat.div_mul_cancel (Nat.dvd_of_mod_eq_zero (not_not.mp hwhole)), take_length] at hweights
  refine ⟨hkeys, fun w hw => ?_⟩
  have hfinite : isFinite w = true := by
    by_contra hnot
    exact hweights (any_eq_true.mpr ⟨w, hw, by simpa using hnot⟩)
  constructor
  · rintro rfl
    simp [isFinite, isNan] at hfinite
  · rintro (rfl | rfl)
    · simp [isFinite, feq] at hfinite
    · simp [isFinite, isNan, feq] at hfinite

variable {sets : List (List (M × Score S))}

omit [LinearOrder S] [LinearOrder M] [BoundedOrder S] in
/-- A source has a set that was read, and a weight that was given or one. -/
theorem mem_withWeights {arith : Arith S} {source : Source S M}
    (h : source ∈ withWeights arith weights sets) :
    source.1 ∈ sets ∧ (source.2 ∈ weights ∨ source.2 = (arith.one : Score S)) := by
  obtain ⟨⟨set, i⟩, hset, rfl⟩ := mem_map.mp h
  refine ⟨(mem_zipIdx' hset).2 ▸ getElem_mem _, ?_⟩
  rw [getD_eq_getElem?_getD]
  cases hw : weights[i]? with
  | none => exact .inr rfl
  | some w => exact .inl (mem_of_getElem? hw)

omit [DecidableEq κ] [BoundedOrder S] in
/-- The sources that are collected hold every member once, and numbers. -/
theorem collected_sound {state : Sets κ S M} (h : Sound state)
    (hsets : keys.mapM (collectSortedSet state) = .ok sets) :
    ∀ set ∈ sets, (set.map Prod.fst).Nodup ∧ Numbers set := by
  have hcollected := exists_of_forall₂ (forall₂_of_mapM_eq_ok hsets).flip
  intro set hset
  obtain ⟨key, -, hkey⟩ := hcollected set hset
  unfold collectSortedSet at hkey
  split at hkey
  · cases hkey
    exact ⟨nodup_nil, fun p hp => absurd hp not_mem_nil⟩
  · rename_i z hheld
    cases hkey
    exact ⟨(h.consistent key z hheld).distinct, h.numbers key z hheld⟩
  · cases hkey

/-- The sources of a weighted command: members once, numbers, and finite weights. -/
structure Weighted (sources : List (Source S M)) : Prop where
  distinct : Distinct sources
  numbers : ∀ source ∈ sources, Numbers source.1
  finite : ∀ source ∈ sources, source.2 ≠ ⊤ ∧ ¬ Infinite source.2

theorem weighted_withWeights {env : Env S} (hext : Extended env.arith) {state : Sets κ S M}
    (h : Sound state) (hcheck : checkSources keys weights = .ok ())
    (hsets : keys.mapM (collectSortedSet state) = .ok sets) :
    Weighted (withWeights env.arith weights sets) := by
  have hcollected := collected_sound h hsets
  have hweights := (checkSources_eq_ok hcheck).2
  refine ⟨fun source hs => ?_, fun source hs => ?_, fun source hs => ?_⟩
  · exact (hcollected _ (mem_withWeights hs).1).1
  · exact (hcollected _ (mem_withWeights hs).1).2
  · rcases (mem_withWeights hs).2 with hw | hw
    · exact hweights _ hw
    · rw [hw]
      exact ⟨WithTop.coe_ne_top, hext.one_finite⟩

variable {arith : Arith S} {sources : List (Source S M)}

section

variable (hext : Extended arith)
include hext

/-- A term is no number exactly where an infinite score has the weight zero. -/
theorem mul_eq_top_iff (h : Weighted sources) {member : M}
    {f : Score S × Score S} (hf : f ∈ factors sources member) :
    arith.mul f.1 f.2 = ⊤ ↔ Vanishes arith f := by
  obtain ⟨source, hs, hlookup⟩ := mem_filterMap.mp hf
  obtain ⟨score, hscore, rfl⟩ := Option.map_eq_some_iff.mp hlookup
  have hnumber : score ≠ ⊤ := h.numbers source hs _ (mem_of_lookup hscore)
  obtain ⟨hweight, hfinite⟩ := h.finite source hs
  rw [hext.mul_nan, Vanishes]
  tauto

/-- With distinct members, what is summed for a member are its factors. -/
theorem sums_iff_adds (h : Weighted sources) (aggregate : Aggregate)
    (member : M) :
    aggregate.Sums (terms arith sources member) ↔
      aggregate.Adds arith (factors sources member) := by
  have hnan : ∀ f ∈ factors sources member, arith.mul f.1 f.2 = ⊤ ↔ Vanishes arith f :=
    fun f hf => mul_eq_top_iff hext h hf
  cases aggregate with
  | sum =>
    simp only [Aggregate.Sums, Cancels, terms, mem_map, not_or]
    refine and_congr ?_ Iff.rfl
    constructor
    · exact fun hnone f hf hv => hnone ⟨f, hf, (hnan f hf).mpr hv⟩
    · rintro hnone ⟨f, hf, htop⟩
      exact hnone f hf ((hnan f hf).mp htop)
  | min | max =>
    simp only [Aggregate.Sums, terms, mem_map, exists_exists_and_eq_and]
    exact exists_congr fun f => and_congr_right fun hf => not_congr (hnan f hf)

/-- The terms of a member become a number, if there are any. -/
theorem accumulated_iff (aggregate : Aggregate) (ts : List (Score S)) :
    (∀ score, ts.foldl (accumulate arith aggregate) none = some score → score ≠ ⊤) ↔
      (ts ≠ [] → aggregate.Sums ts) := by
  cases ts with
  | nil => simp
  | cons t ts =>
    rw [foldl_cons, accumulate, foldl_accumulate, ← hext.combine_ne_top]
    simp

/-- A union has no NaN if and only if the factors of every member add up to numbers. -/
theorem numbers_zunionCompute (h : Weighted sources)
    (aggregate : Aggregate) :
    Numbers (zunionCompute arith aggregate sources) ↔
      ∀ member, factors sources member ≠ [] → aggregate.Adds arith (factors sources member) := by
  rw [numbers_iff_lookup (nodup_zunionCompute sources)]
  refine forall_congr' fun member => ?_
  rw [lookup_zunionCompute h.distinct, accumulated_iff hext, sums_iff_adds hext h]
  simp [terms]

/-- The same for an intersection and the members of all sources. -/
theorem numbers_zinterCompute (h : Weighted sources) (hne : sources ≠ [])
    (aggregate : Aggregate) :
    Numbers (zinterCompute arith aggregate sources) ↔
      ∀ member, inAll sources member = true →
        aggregate.Adds arith (factors sources member) := by
  rw [numbers_iff_lookup (nodup_zinterCompute h.distinct)]
  refine forall_congr' fun member => ?_
  rw [lookup_zinterCompute sources hne]
  by_cases hall : inAll sources member = true
  · have hterms : terms arith sources member ≠ [] := by
      cases sources with
      | nil => exact absurd rfl hne
      | cons first rest =>
        rw [inAll_cons, Bool.and_eq_true] at hall
        obtain ⟨score, hscore⟩ := Option.isSome_iff_exists.mp hall.1
        rw [terms_cons_some rest hscore]
        exact cons_ne_nil _ _
    simp only [hall, if_true, forall_const]
    rw [accumulated_iff hext, ← sums_iff_adds hext h]
    exact ⟨fun hsums => hsums hterms, fun hsums _ => hsums⟩
  · simp [hall]

end

/-! ### Every command -/

section

variable {env : Env S} {state : Sets κ S M}

omit [DecidableEq κ] [BoundedOrder S] [LinearOrder S] [LinearOrder M] in
theorem collected_ne_nil (hkeys : keys ≠ [])
    (hsets : keys.mapM (collectSortedSet state) = .ok sets) :
    sets ≠ [] := by
  have hlength := (forall₂_of_mapM_eq_ok hsets).length_eq
  intro hnil
  rw [hnil, length_nil, length_eq_zero_iff] at hlength
  exact hkeys hlength

/-- `ZINCRBY` stores a number exactly when the old score and the increment have a sum. -/
theorem storeZincrby_iff (hext : Extended env.arith) (h : Sound state) {key : κ} {member : M}
    {increment : Score S} {state' : Sets κ S M}
    (hok : storeZincrby env.arith state key member increment = .ok state') :
    (∀ key z, state' key = some (.zset z) → Consistent z) ∧
      (NoNan state' ↔ ∀ z old, state key = some (.zset z) →
        z.scores.lookup member = some old → ¬ Opposite old increment) := by
  unfold storeZincrby at hok
  split at hok
  · cases hok
  rename_i hnan
  have hincrement : increment ≠ ⊤ := by simpa [isNan] using hnan
  have hzero : env.arith.add env.arith.zero increment ≠ ⊤ := by
    rw [ne_eq, hext.add_nan]
    rintro (heq | heq | hopposite)
    · exact WithTop.coe_ne_top heq
    · exact hincrement heq
    · exact hext.zero_finite (hopposite.imp And.left And.left)
  split at hok
  · rename_i hheld
    cases hok
    refine ⟨all_set h.consistent (consistent_zincrby env.arith consistent_empty _ _), ?_⟩
    refine iff_of_true ?_ fun z old hz => by rw [hheld] at hz; cases hz
    rw [noNan_set_iff h.numbers, scores_zincrby, numbers_put_iff numbers_empty]
    exact hzero
  · rename_i z hheld
    cases hok
    refine ⟨all_set h.consistent (consistent_zincrby env.arith (h.consistent key z hheld) _ _), ?_⟩
    rw [noNan_set_iff h.numbers, scores_zincrby, numbers_put_iff (h.numbers key z hheld)]
    cases hlookup : z.scores.lookup member with
    | none =>
      refine iff_of_true hzero fun z' old hz' hold => ?_
      rw [hheld, Option.some.injEq, Held.zset.injEq] at hz'
      rw [← hz', hlookup] at hold
      cases hold
    | some old =>
      have hold : old ≠ ⊤ := h.numbers key z hheld _ (mem_of_lookup hlookup)
      rw [ne_eq, hext.add_nan]
      constructor
      · intro hsum z' old' hz' hold' hopposite
        rw [hheld, Option.some.injEq, Held.zset.injEq] at hz'
        rw [← hz', hlookup, Option.some.injEq] at hold'
        exact hsum (.inr (.inr (hold' ▸ hopposite)))
      · rintro hnot (heq | heq | hopposite)
        · exact hold heq
        · exact hincrement heq
        · exact hnot z old hheld hlookup hopposite
  · cases hok

/-- A command that computes is refused, or writes what it has computed from its sources. -/
theorem storeComputed_cases (env : Env S) (state : Sets κ S M) (dst : κ) (keys : List κ)
    (weights : List (Score S))
    (compute : List (List (M × Score S)) → List (M × Score S)) :
    (∃ message, storeComputed env state dst keys weights compute = .error message) ∨
      ∃ sets, checkSources keys weights = .ok () ∧
        keys.mapM (collectSortedSet state) = .ok sets ∧
        storeComputed env state dst keys weights compute =
          .ok (writeComputedZset env state dst (compute sets)) := by
  unfold storeComputed
  cases hcheck : checkSources keys weights with
  | error message => exact .inl ⟨message, rfl⟩
  | ok =>
    cases hsets : keys.mapM (collectSortedSet state) with
    | error message => exact .inl ⟨message, rfl⟩
    | ok sets => exact .inr ⟨sets, rfl, rfl, rfl⟩

end

variable [SuccOrder S] [OrderBot M] {env : Env S} {state : Sets κ S M}

/-- What `ZRANGESTORE` selects is stored in the source. -/
theorem pairs_numbers (env : Env S) {z : ZSet S M} (hz : Consistent z) (hnumbers : Numbers z.scores)
    (selection : Selection S M) :
    ∃ reply, selection.pairs env.arith z = some reply ∧
      ∀ pairs, reply = .ok pairs → Numbers pairs := by
  have hkeys : ∀ k ∈ z.keys, (item k).2 ≠ ⊤ := fun k hk =>
    hnumbers _ (mem_of_lookup ((hz.agree k).mp hk))
  have hdirected : ∀ (reverse : Bool) (k : Key S M), k ∈ directed reverse z.keys → k ∈ z.keys := by
    intro reverse k hk
    cases reverse <;> simpa [directed] using hk
  have hwindow : ∀ {α : Type} (offset count : Option Nat) (l : List α) (a : α),
      a ∈ window offset count l → a ∈ l := by
    intro α offset count l a ha
    cases count with
    | none => exact mem_of_mem_drop ha
    | some n => exact mem_of_mem_drop (mem_of_mem_take ha)
  cases selection with
  | byScore interval reverse offset count =>
    refine ⟨_, zrangebyscore_eq interval reverse offset count, fun pairs hpairs => ?_⟩
    unfold Interval.refusing at hpairs
    split at hpairs
    · cases hpairs
    · cases hpairs
      intro p hp
      obtain ⟨k, hk, rfl⟩ := mem_map.mp hp
      exact hkeys k (hdirected reverse k (mem_of_mem_filter (hwindow offset count _ k hk)))
  | byLex inside reverse offset count =>
    refine ⟨_, rfl, fun pairs hpairs => ?_⟩
    cases hpairs
    intro p hp
    obtain ⟨member, hmember, rfl⟩ := mem_map.mp hp
    have hlisted := mem_of_mem_filter (hwindow offset count _ member hmember)
    obtain ⟨k, hk, rfl⟩ := mem_map.mp hlisted
    have hmem := hdirected reverse k hk
    rw [(hz.agree k).mp hmem]
    exact hkeys k hmem
  | byRank start stop reverse =>
    refine ⟨_, rfl, fun pairs hpairs => ?_⟩
    cases hpairs
    intro p hp
    unfold zrange at hp
    dsimp only at hp
    generalize (if stop.toInt < 0 then _ else _) = last at hp
    generalize (if start.toInt < 0 then _ else _) = first at hp
    split at hp
    · cases hp
    · obtain ⟨k, hk, rfl⟩ := mem_map.mp hp
      exact hkeys k (hdirected reverse k (mem_of_mem_drop (mem_of_mem_take hk)))

/-- `ZRANGESTORE` is refused, or writes numbers that it has selected. -/
theorem storeSelection_cases (env : Env S) (h : Sound state) (dst src : κ)
    (selection : Selection S M) :
    (∃ message, storeSelection env state dst src selection = some (.error message)) ∨
      ∃ pairs, storeSelection env state dst src selection =
        some (.ok (writeComputedZset env state dst (ofPairs pairs))) ∧ Numbers pairs := by
  have hselect : ∀ z : ZSet S M, Consistent z → Numbers z.scores →
      storeSelection env state dst src selection =
        ((selection.pairs env.arith z).map fun reply =>
          reply.map fun pairs => writeComputedZset env state dst (ofPairs pairs)) →
      (∃ message, storeSelection env state dst src selection = some (.error message)) ∨
        ∃ pairs, storeSelection env state dst src selection =
          some (.ok (writeComputedZset env state dst (ofPairs pairs))) ∧ Numbers pairs := by
    intro z hz hnumbers hdef
    obtain ⟨reply, hreply, hpairs⟩ := pairs_numbers env hz hnumbers selection
    rw [hdef, hreply]
    cases reply with
    | error message => exact .inl ⟨message, rfl⟩
    | ok pairs => exact .inr ⟨pairs, rfl, hpairs pairs rfl⟩
  cases hsrc : state src with
  | none => exact hselect .empty consistent_empty numbers_empty (by rw [storeSelection, hsrc])
  | some held =>
    cases held with
    | other => exact .inl ⟨wrongType, by rw [storeSelection, hsrc]⟩
    | zset z =>
      exact hselect z (h.consistent src z hsrc) (h.numbers src z hsrc)
        (by rw [storeSelection, hsrc])

variable {command : KeyCommand κ S M} {result : Sets κ S M × List (Record κ S M)}

/-- A command that succeeds is good if it leaves numbers and its records replay to them. -/
theorem good_of_ok (h : execute env state command = some (.ok result)) :
    Good env state command ↔ NoNan result.1 ∧ replay env state result.2 = .ok result.1 := by
  rw [Good, h]

theorem good_of_error {message : String} (h : execute env state command = some (.error message)) :
    Good env state command := by
  rw [Good, h]
  trivial

/-- A command on computed sets is good exactly when what it computes are numbers. -/
theorem good_storeComputed (h : Sound state) {dst : κ}
    {compute : List (List (M × Score S)) → List (M × Score S)}
    {P : List (List (M × Score S)) → Prop}
    (hexecute : execute env state command = some (storeComputed env state dst keys weights compute))
    (hcomputed : ∀ sets, checkSources keys weights = .ok () →
      keys.mapM (collectSortedSet state) = .ok sets →
        ((compute sets).map Prod.fst).Nodup ∧ (Numbers (compute sets) ↔ P sets)) :
    Good env state command ↔ ∀ sets, checkSources keys weights = .ok () →
      keys.mapM (collectSortedSet state) = .ok sets → P sets := by
  rcases storeComputed_cases env state dst keys weights compute with
    ⟨message, herror⟩ | ⟨sets, hcheck, hsets, hok⟩
  · refine iff_of_true (good_of_error (hexecute.trans (congrArg some herror))) ?_
    intro sets hcheck hsets
    rw [storeComputed, hcheck, hsets] at herror
    cases herror
  · obtain ⟨hdistinct, hnumbers⟩ := hcomputed sets hcheck hsets
    rw [good_of_ok (hexecute.trans (congrArg some hok)), writeComputedZset_iff h dst hdistinct,
      hnumbers]
    constructor
    · intro hP sets' _ hsets'
      rw [hsets, Except.ok.injEq] at hsets'
      exact hsets' ▸ hP
    · exact fun hP => hP sets hcheck hsets

/-- **A command is good exactly under its condition**, in keys that hold numbers. -/
theorem good_iff (hext : Extended env.arith) (h : Sound state) (command : KeyCommand κ S M) :
    Good env state command ↔ Ok env state command := by
  cases command with
  | zadd opts key members =>
    refine iff_of_true ?_ trivial
    cases hzadd : storeZadd opts state key members with
    | error message =>
      exact good_of_error (by rw [execute, hzadd]; rfl)
    | ok state' =>
      have hexecute : execute env state (.zadd opts key members) =
          some (.ok (state', [.zadd opts key members])) := by rw [execute, hzadd]; rfl
      refine (good_of_ok hexecute).mpr ⟨(sound_storeZadd h hzadd).numbers, ?_⟩
      simpa [replay, replayRecord] using hzadd
  | zincrby key member increment =>
    cases hzincrby : storeZincrby env.arith state key member increment with
    | error message =>
      refine iff_of_true (good_of_error (by rw [execute, hzincrby]; rfl)) ?_
      intro z old hz hold hopposite
      rcases storeZincrby_eq_error hzincrby with hnan | hother
      · rcases hopposite with ⟨-, heq⟩ | ⟨-, heq⟩
        · exact WithTop.coe_ne_top (heq.symm.trans hnan)
        · exact WithTop.coe_ne_top (heq.symm.trans hnan)
      · rw [hother] at hz
        cases hz
    | ok state' =>
      have hexecute : execute env state (.zincrby key member increment) =
          some (.ok (state', [.zincrby key member increment])) := by
        rw [execute, hzincrby]
        rfl
      rw [good_of_ok hexecute, Ok, ← (storeZincrby_iff hext h hzincrby).2]
      refine and_iff_left ?_
      simpa [replay, replayRecord] using hzincrby
  | zunionstore dst keys weights aggregate =>
    refine good_storeComputed h rfl fun sets hcheck hsets => ⟨nodup_zunionCompute _, ?_⟩
    exact numbers_zunionCompute hext (weighted_withWeights hext h hcheck hsets) aggregate
  | zinterstore dst keys weights aggregate =>
    refine good_storeComputed h rfl fun sets hcheck hsets => ?_
    have hweighted := weighted_withWeights hext h hcheck hsets
    have hne := collected_ne_nil (checkSources_eq_ok hcheck).1 hsets
    exact ⟨nodup_zinterCompute hweighted.distinct,
      numbers_zinterCompute hext hweighted (by simpa [withWeights] using hne) aggregate⟩
  | zdiffstore dst keys =>
    refine (good_storeComputed h rfl (P := fun _ => True) fun sets hcheck hsets => ?_).trans
      (by simp [Ok])
    have hsound := collected_sound h hsets
    cases sets with
    | nil => exact ⟨nodup_nil, iff_of_true (fun p hp => absurd hp not_mem_nil) trivial⟩
    | cons first rest =>
      obtain ⟨hdistinct, hnumbers⟩ := hsound first mem_cons_self
      have hsub := zdiffCompute_sublist first rest
      exact ⟨Nodup.sublist (hsub.map Prod.fst) hdistinct,
        iff_of_true (fun p hp => hnumbers p (hsub.subset hp)) trivial⟩
  | zrangestore dst src selection =>
    refine iff_of_true ?_ trivial
    rcases storeSelection_cases env h dst src selection with
      ⟨message, herror⟩ | ⟨pairs, hok, hnumbers⟩
    · exact good_of_error herror
    have hexecute : execute env state (.zrangestore dst src selection) =
        some (.ok (writeComputedZset env state dst (ofPairs pairs))) := hok
    refine (good_of_ok hexecute).mpr ((writeComputedZset_iff h dst (nodup_ofPairs pairs)).mpr ?_)
    exact fun p hp => hnumbers p (mem_ofPairs hp)

/-- Every command keeps the trees and maps together. -/
theorem consistent_execute (hext : Extended env.arith) (h : Sound state)
    (hexecute : execute env state command = some (.ok result)) :
    ∀ key z, result.1 key = some (.zset z) → Consistent z := by
  have hcomputed : ∀ {dst : κ} {keys : List κ} {weights : List (Score S)}
      {compute : List (List (M × Score S)) → List (M × Score S)},
      storeComputed env state dst keys weights compute = .ok result →
      (∀ sets, checkSources keys weights = .ok () →
        keys.mapM (collectSortedSet state) = .ok sets →
          ((compute sets).map Prod.fst).Nodup) →
      ∀ key z, result.1 key = some (.zset z) → Consistent z := by
    intro dst keys weights compute hresult hdistinct
    rcases storeComputed_cases env state dst keys weights compute with
      ⟨message, herror⟩ | ⟨sets, hcheck, hsets, hok⟩
    · rw [herror] at hresult
      cases hresult
    · rw [hok, Except.ok.injEq] at hresult
      rw [← hresult]
      exact consistent_writeComputedZset h dst (hdistinct sets hcheck hsets)
  cases command with
  | zadd opts key members =>
    obtain ⟨state', hok, rfl⟩ := map_eq_ok.mp (Option.some.inj hexecute)
    exact (sound_storeZadd h hok).consistent
  | zincrby key member increment =>
    obtain ⟨state', hok, rfl⟩ := map_eq_ok.mp (Option.some.inj hexecute)
    exact (storeZincrby_iff hext h hok).1
  | zunionstore dst keys weights aggregate =>
    exact hcomputed (Option.some.inj hexecute) fun _ _ _ => nodup_zunionCompute _
  | zinterstore dst keys weights aggregate =>
    refine hcomputed (Option.some.inj hexecute) fun sets hcheck hsets => ?_
    exact nodup_zinterCompute (weighted_withWeights hext h hcheck hsets).distinct
  | zdiffstore dst keys =>
    refine hcomputed (Option.some.inj hexecute) fun sets _ hsets => ?_
    have hsound := collected_sound h hsets
    cases sets with
    | nil => exact nodup_nil
    | cons first rest =>
      exact Nodup.sublist ((zdiffCompute_sublist first rest).map Prod.fst)
        (hsound first mem_cons_self).1
  | zrangestore dst src selection =>
    rcases storeSelection_cases env h dst src selection with
      ⟨message, herror⟩ | ⟨pairs, hok, -⟩
    · rw [execute, herror] at hexecute
      cases hexecute
    · rw [execute, hok, Option.some.injEq, Except.ok.injEq] at hexecute
      rw [← hexecute]
      exact consistent_writeComputedZset h dst (nodup_ofPairs pairs)

/-- A step under its condition leads to keys that hold numbers. -/
theorem sound_stepSets (hext : Extended env.arith) (state : Sets κ S M)
    (command : KeyCommand κ S M) (hok : Ok env state command) (h : Sound state) :
    Sound (stepSets env state command) := by
  have hgood := (good_iff hext h command).mpr hok
  unfold stepSets
  split
  · rename_i state' records hexecute
    exact ⟨consistent_execute hext h hexecute, ((good_of_ok hexecute).mp hgood).1⟩
  · exact h

/-- **Sorted sets hold numbers as long as every command meets its condition, and a command is good
exactly then.**  From keys that hold numbers, every run of such commands leads to keys that hold
numbers, where each command stops nothing, leaves numbers only and is replayed to the same keys
exactly under its condition. -/
theorem numbers_stay (hext : Extended env.arith) {start : Sets κ S M} (hstart : Sound start)
    {commands : List (KeyCommand κ S M)}
    (hsafe : Runs.Safe (stepSets env) (Ok env) start commands) (next : KeyCommand κ S M) :
    NoNan (Runs.run (stepSets env) start commands) ∧
      (Good env (Runs.run (stepSets env) start commands) next ↔
        Ok env (Runs.run (stepSets env) start commands) next) := by
  have hsound := Runs.invariant (sound_stepSets hext) hsafe hstart
  exact ⟨hsound.numbers, good_iff hext hsound next⟩

end Commands

/-! ## Infinite scores -/

section Examples

instance (a b : Score Five) : Decidable (Opposite a b) := inferInstanceAs (Decidable (_ ∨ _))

instance (a : Score Five) : Decidable (Infinite a) := inferInstanceAs (Decidable (_ ∨ _))

theorem extended_five : Extended Five.arith where
  zero_finite := by decide
  one_finite := by decide
  one_ne_zero := by decide
  add_nan := by decide
  add_top := by decide
  add_bot := by decide
  mul_nan := by decide

/-- The names of the five numbers, and of what is none. -/
def fiveNames : List (Score Five × Str) :=
  [(Five.negInf, "-inf".toList), (Five.negOne, "-1".toList), (Five.zero, "0".toList),
    (Five.one, "1".toList), (Five.inf, "inf".toList), (⊤, "NaN".toList)]

def fiveEnv : Env Five where
  arith := Five.arith
  print := fun score => (fiveNames.lookup score).getD []
  parse := fun text => (fiveNames.find? fun p => p.2 == text).map Prod.fst
  parse_print := by decide

/-- No keys. -/
def noKeys : Sets Nat Five Nat := fun _ => none

theorem sound_noKeys : Sound noKeys where
  consistent := by
    intro key z h
    cases h
  numbers := by
    intro key z h
    cases h

/-- One key, with an infinite score. -/
def infiniteKey : Sets Nat Five Nat :=
  Runs.run (stepSets fiveEnv) noKeys [.zadd noOptions 1 [(7, Five.inf)]]

/-- A set with an infinite score, before the opposite infinity is added. -/
theorem numbers_stay_infinite :
    NoNan infiniteKey ∧
      (Good fiveEnv infiniteKey (.zincrby 1 7 Five.negInf) ↔
        Ok fiveEnv infiniteKey (.zincrby 1 7 Five.negInf)) := by
  have hsafe : Runs.Safe (stepSets fiveEnv) (Ok fiveEnv) noKeys
      [.zadd noOptions 1 [(7, Five.inf)]] := ⟨trivial, trivial⟩
  exact numbers_stay extended_five sound_noKeys hsafe _

/-- `ZINCRBY` with the opposite infinity stores what is no number. So does `ZUNIONSTORE` with the
weight zero, and the record that it journals is refused. -/
theorem infinite_scores_cancel :
    stepSets fiveEnv infiniteKey (.zincrby 1 7 Five.negInf) 1 =
        some (.zset ⟨[(toLex (⊤, 7), ())], [(7, ⊤)]⟩) ∧
      execute fiveEnv infiniteKey (.zunionstore 2 [1] [Five.zero] .sum) =
        some (.ok (infiniteKey.set 2 ⟨[(toLex (⊤, 7), ())], [(7, ⊤)]⟩,
          [.del 2, .zaddText 2 [("NaN".toList, 7)]])) ∧
      replay fiveEnv infiniteKey [.del 2, .zaddText 2 [("NaN".toList, 7)]] = .error floatErr := by
  refine ⟨?_, ?_, ?_⟩
  · rfl
  · rfl
  · rfl

end Examples

end Lux.ScoredSets
