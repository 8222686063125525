import Lux.ScoredSetStores

/-!
# Sums of extended scores

Scores are extended numbers: opposite infinities have no sum, and zero times an infinity is no
number. `combine_ne_top` says when the weighted scores of one member become a number under each
aggregate, and `lookup_zunionCompute` and `lookup_zinterCompute` say of which terms the score of a
member is made.
-/

namespace Lux.ScoredSets

open KeyedList
open List hiding lookup_isSome_iff

/-! ## Extended numbers -/

section Extended

variable {S : Type} [LinearOrder S] [BoundedOrder S]

/-- The two infinities. -/
def Infinite (a : Score S) : Prop := a = ((⊥ : S) : Score S) ∨ a = ((⊤ : S) : Score S)

/-- One is an infinity and the other one is the opposite infinity. -/
def Opposite (a b : Score S) : Prop :=
  a = ((⊥ : S) : Score S) ∧ b = ((⊤ : S) : Score S) ∨
    a = ((⊤ : S) : Score S) ∧ b = ((⊥ : S) : Score S)

/-- The arithmetic of extended numbers. -/
structure Extended (arith : Arith S) : Prop where
  zero_finite : ¬ Infinite (arith.zero : Score S)
  one_finite : ¬ Infinite (arith.one : Score S)
  one_ne_zero : arith.one ≠ arith.zero
  add_nan : ∀ a b, arith.add a b = ⊤ ↔ a = ⊤ ∨ b = ⊤ ∨ Opposite a b
  add_top : ∀ a b, arith.add a b ≠ ⊤ → (arith.add a b = ((⊤ : S) : Score S) ↔
    a = ((⊤ : S) : Score S) ∨ b = ((⊤ : S) : Score S))
  add_bot : ∀ a b, arith.add a b ≠ ⊤ → (arith.add a b = ((⊥ : S) : Score S) ↔
    a = ((⊥ : S) : Score S) ∨ b = ((⊥ : S) : Score S))
  mul_nan : ∀ a b, arith.mul a b = ⊤ ↔ a = ⊤ ∨ b = ⊤ ∨ Infinite a ∧ b = (arith.zero : Score S) ∨
    a = (arith.zero : Score S) ∧ Infinite b

variable {arith : Arith S}

theorem Extended.bot_ne_top (h : Extended arith) : ((⊥ : S) : Score S) ≠ ((⊤ : S) : Score S) := by
  intro heq
  have hsub : (⊥ : S) = ⊤ := WithTop.coe_injective heq
  have hzero : arith.zero = ⊥ := le_antisymm (hsub ▸ le_top) bot_le
  exact h.zero_finite (.inl (by rw [hzero]))

/-- The terms have no sum that is a number. -/
def Cancels (terms : List (Score S)) : Prop :=
  ⊤ ∈ terms ∨ ((⊤ : S) : Score S) ∈ terms ∧ ((⊥ : S) : Score S) ∈ terms

/-- What a running sum tells about its terms. -/
structure SumOf (total : Score S) (terms : List (Score S)) : Prop where
  nan : total = ⊤ ↔ Cancels terms
  top : total ≠ ⊤ → (total = ((⊤ : S) : Score S) ↔ ((⊤ : S) : Score S) ∈ terms)
  bot : total ≠ ⊤ → (total = ((⊥ : S) : Score S) ↔ ((⊥ : S) : Score S) ∈ terms)

theorem Extended.sumOf_single (h : Extended arith) (term : Score S) : SumOf term [term] := by
  have hne := h.bot_ne_top
  refine ⟨?_, fun _ => ?_, fun _ => ?_⟩
  · unfold Cancels
    simp only [mem_singleton]
    constructor
    · exact fun heq => .inl heq.symm
    · rintro (heq | ⟨htop, hbot⟩)
      · exact heq.symm
      · exact absurd (hbot.trans htop.symm) hne
  · rw [mem_singleton]
    exact eq_comm
  · rw [mem_singleton]
    exact eq_comm

theorem Extended.sumOf_add (h : Extended arith) {total : Score S} {terms : List (Score S)}
    (hsum : SumOf total terms) (term : Score S) :
    SumOf (arith.add total term) (terms ++ [term]) := by
  have hne := h.bot_ne_top
  have hnan : arith.add total term = ⊤ ↔ Cancels (terms ++ [term]) := by
    rw [h.add_nan]
    by_cases htotal : total = ⊤
    · refine iff_of_true (.inl htotal) ?_
      rcases hsum.nan.mp htotal with hmem | ⟨htop, hbot⟩
      · exact .inl (mem_append_left _ hmem)
      · exact .inr ⟨mem_append_left _ htop, mem_append_left _ hbot⟩
    · have hcancels : ¬ Cancels terms := fun hc => htotal (hsum.nan.mpr hc)
      have htop := hsum.top htotal
      have hbot := hsum.bot htotal
      unfold Cancels Opposite at *
      grind
  refine ⟨hnan, fun hnum => ?_, fun hnum => ?_⟩
  all_goals
    have htotal : total ≠ ⊤ := fun heq => hnum ((h.add_nan _ _).mpr (.inl heq))
    rw [mem_append, mem_singleton]
  · rw [h.add_top _ _ hnum, hsum.top htotal, eq_comm (a := term)]
  · rw [h.add_bot _ _ hnum, hsum.bot htotal, eq_comm (a := term)]

theorem Extended.sumOf_foldl (h : Extended arith) (rest : List (Score S)) :
    ∀ {total : Score S} {terms : List (Score S)}, SumOf total terms →
      SumOf (rest.foldl arith.add total) (terms ++ rest) := by
  induction rest with
  | nil =>
    intro total terms hsum
    rw [append_nil]
    exact hsum
  | cons term rest ih =>
    intro total terms hsum
    have hstep := ih (h.sumOf_add hsum term)
    rwa [append_assoc] at hstep

omit [BoundedOrder S] in
theorem fmin_eq_top {a b : Score S} : fmin a b = ⊤ ↔ a = ⊤ ∧ b = ⊤ := by
  unfold fmin isNan
  grind [min_eq_top]

omit [BoundedOrder S] in
theorem fmax_eq_top {a b : Score S} : fmax a b = ⊤ ↔ a = ⊤ ∧ b = ⊤ := by
  unfold fmax isNan
  grind [max_eq_top]

omit [LinearOrder S] [BoundedOrder S] in
/-- An operation that gives no number only for two that are none. -/
theorem foldl_eq_top {op : Score S → Score S → Score S}
    (hop : ∀ a b, op a b = ⊤ ↔ a = ⊤ ∧ b = ⊤) (rest : List (Score S)) :
    ∀ first, rest.foldl op first = ⊤ ↔ ∀ t ∈ first :: rest, t = ⊤ := by
  induction rest with
  | nil => simp
  | cons term rest ih =>
    intro first
    rw [foldl_cons, ih]
    simp [hop, and_assoc]

/-- The terms become a number. -/
def Aggregate.Sums : Aggregate → List (Score S) → Prop
  | .sum, terms => ¬ Cancels terms
  | .min, terms => ∃ t ∈ terms, t ≠ ⊤
  | .max, terms => ∃ t ∈ terms, t ≠ ⊤

/-- **When the scores of a member become a number.** -/
theorem Extended.combine_ne_top (h : Extended arith) (aggregate : Aggregate) (first : Score S)
    (rest : List (Score S)) :
    rest.foldl (aggregate.combine arith) first ≠ ⊤ ↔ aggregate.Sums (first :: rest) := by
  cases aggregate with
  | sum => exact not_congr (h.sumOf_foldl rest (h.sumOf_single first)).nan
  | min =>
    refine (not_congr (foldl_eq_top (fun _ _ => fmin_eq_top) rest first)).trans ?_
    push Not
    rfl
  | max =>
    refine (not_congr (foldl_eq_top (fun _ _ => fmax_eq_top) rest first)).trans ?_
    push Not
    rfl

end Extended

/-! ## What the commands compute -/

section Compute

variable {S M : Type} [LinearOrder S] [LinearOrder M] {arith : Arith S} {aggregate : Aggregate}

/-- One more term for a member. -/
def accumulate (arith : Arith S) (aggregate : Aggregate) (total : Option (Score S))
    (term : Score S) : Option (Score S) :=
  some (total.elim term fun current => aggregate.combine arith current term)

/-- The scores of a member in the sources, with their weights. -/
def factors (sources : List (Source S M)) (member : M) : List (Score S × Score S) :=
  sources.filterMap fun source => (source.1.lookup member).map fun score => (score, source.2)

/-- The weighted scores of a member. -/
def terms (arith : Arith S) (sources : List (Source S M)) (member : M) : List (Score S) :=
  (factors sources member).map fun f => arith.mul f.1 f.2

/-- Every source has the member. -/
def inAll (sources : List (Source S M)) (member : M) : Bool :=
  sources.all fun source => (source.1.lookup member).isSome

omit [LinearOrder S] in
theorem inAll_cons (source : Source S M) (sources : List (Source S M)) (member : M) :
    inAll (source :: sources) member = ((source.1.lookup member).isSome && inAll sources member) :=
  rfl

variable (sources : List (Source S M))

omit [LinearOrder S] in
theorem terms_cons_some {source : Source S M} {member : M} {score : Score S}
    (h : source.1.lookup member = some score) :
    terms arith (source :: sources) member =
      arith.mul score source.2 :: terms arith sources member := by
  simp only [terms, factors, filterMap_cons, h, Option.map_some, map_cons]

theorem foldl_accumulate (ts : List (Score S)) : ∀ total : Score S,
    ts.foldl (accumulate arith aggregate) (some total) =
      some (ts.foldl (aggregate.combine arith) total) := by
  induction ts with
  | nil => exact fun _ => rfl
  | cons t ts ih => exact fun total => ih (aggregate.combine arith total t)

theorem lookup_unionMember (weight : Score S) (result : List (M × Score S)) (p : M × Score S)
    (member : M) :
    (unionMember arith aggregate weight result p).lookup member =
      if member = p.1 then
        accumulate arith aggregate (result.lookup member) (arith.mul p.2 weight)
      else result.lookup member := by
  unfold unionMember accumulate
  by_cases hmember : member = p.1
  · subst hmember
    cases hlookup : result.lookup p.1 <;> simp [lookup_put_self]
  · rw [if_neg hmember]
    cases hlookup : result.lookup p.1 <;> simp [lookup_put_of_ne _ _ hmember]

/-- One source adds its term for each of its members. -/
theorem lookup_unionSource (weight : Score S) (source : List (M × Score S)) (member : M) :
    (source.map Prod.fst).Nodup → ∀ result : List (M × Score S),
      (source.foldl (unionMember arith aggregate weight) result).lookup member =
        (source.lookup member).elim (result.lookup member) fun score =>
          accumulate arith aggregate (result.lookup member) (arith.mul score weight) := by
  induction source with
  | nil => exact fun _ _ => rfl
  | cons p source ih =>
    intro hdistinct result
    rw [map_cons, nodup_cons] at hdistinct
    rw [foldl_cons, ih hdistinct.2, lookup_unionMember]
    obtain ⟨k, score⟩ := p
    by_cases hmember : member = k
    · subst hmember
      have hnone : source.lookup member = none := by
        rw [← Option.not_isSome_iff_eq_none, lookup_isSome_iff]
        exact hdistinct.1
      simp [hnone]
    · simp [lookup_cons, beq_false_of_ne hmember, hmember]

/-- Every source has its members once. -/
def Distinct (sources : List (Source S M)) : Prop :=
  ∀ source ∈ sources, (source.1.map Prod.fst).Nodup

theorem lookup_zunionFrom (member : M) : Distinct sources → ∀ result : List (M × Score S),
      (sources.foldl (fun result source =>
          source.1.foldl (unionMember arith aggregate source.2) result) result).lookup member =
        (terms arith sources member).foldl (accumulate arith aggregate) (result.lookup member) := by
  induction sources with
  | nil => exact fun _ _ => rfl
  | cons source sources ih =>
    intro hdistinct result
    obtain ⟨hfirst, hrest⟩ := forall_mem_cons.mp hdistinct
    rw [foldl_cons, ih hrest, lookup_unionSource _ _ _ hfirst]
    cases hlookup : source.1.lookup member with
    | none => simp only [terms, factors, filterMap_cons, hlookup, Option.map_none, Option.elim_none]
    | some score => rw [terms_cons_some _ hlookup, Option.elim_some, foldl_cons]

/-- **The score of a member in a union** is made of its terms. -/
theorem lookup_zunionCompute {sources : List (Source S M)} (hdistinct : Distinct sources)
    (member : M) :
    (zunionCompute arith aggregate sources).lookup member =
      (terms arith sources member).foldl (accumulate arith aggregate) none :=
  lookup_zunionFrom sources member hdistinct []

theorem lookup_interFrom (member : M) : ∀ result : List (M × Score S),
      (sources.foldl (interSource arith aggregate) result).lookup member =
        if inAll sources member then
          (result.lookup member).map fun total =>
            (terms arith sources member).foldl (aggregate.combine arith) total
        else none := by
  induction sources with
  | nil => simp [inAll, terms, factors]
  | cons source sources ih =>
    intro result
    have hstep : (interSource arith aggregate result source).lookup member =
        (result.lookup member).bind fun total => (source.1.lookup member).map fun score =>
          aggregate.combine arith total (arith.mul score source.2) := by
      rw [← lookup_filterMap_values (fun k total => (source.1.lookup k).map fun score =>
        aggregate.combine arith total (arith.mul score source.2)) result member (by simp)]
      simp [interSource, Function.comp_def]
    rw [foldl_cons, ih, hstep, inAll_cons]
    cases hlookup : source.1.lookup member with
    | none => cases result.lookup member <;> simp
    | some score =>
      rw [terms_cons_some _ hlookup]
      cases result.lookup member <;> simp

/-- **The score of a member in an intersection** is made of its terms, if every source has one. -/
theorem lookup_zinterCompute (hne : sources ≠ []) (member : M) :
    (zinterCompute arith aggregate sources).lookup member =
      if inAll sources member then
        (terms arith sources member).foldl (accumulate arith aggregate) none
      else none := by
  cases sources with
  | nil => exact absurd rfl hne
  | cons first rest =>
    rw [zinterCompute, lookup_interFrom]
    have hfirst := lookup_map_values (fun _ score => arith.mul score first.2) first.1 member
    rw [hfirst, inAll_cons]
    cases hlookup : first.1.lookup member with
    | none => simp
    | some score =>
      rw [terms_cons_some _ hlookup, foldl_cons, accumulate, foldl_accumulate]
      simp

theorem nodup_zunionCompute : ((zunionCompute arith aggregate sources).map Prod.fst).Nodup := by
  have hmember : ∀ (weight : Score S) (result : List (M × Score S)) (p : M × Score S),
      (result.map Prod.fst).Nodup →
        ((unionMember arith aggregate weight result p).map Prod.fst).Nodup := by
    intro weight result p h
    unfold unionMember
    split
    · exact nodup_put h _ _
    · exact nodup_put h _ _
  have hsource : ∀ (weight : Score S) (source result : List (M × Score S)),
      (result.map Prod.fst).Nodup →
        ((source.foldl (unionMember arith aggregate weight) result).map Prod.fst).Nodup := by
    intro weight source
    induction source with
    | nil => exact fun _ h => h
    | cons p source ih => exact fun result h => ih _ (hmember weight result p h)
  suffices hall : ∀ result : List (M × Score S), (result.map Prod.fst).Nodup →
      ((sources.foldl (fun result source =>
        source.1.foldl (unionMember arith aggregate source.2) result) result).map
          Prod.fst).Nodup from hall [] nodup_nil
  induction sources with
  | nil => exact fun _ h => h
  | cons source sources ih => exact fun result h => ih _ (hsource source.2 source.1 result h)

theorem nodup_zinterCompute {sources : List (Source S M)} (hdistinct : Distinct sources) :
    ((zinterCompute arith aggregate sources).map Prod.fst).Nodup := by
  cases sources with
  | nil => exact nodup_nil
  | cons first rest =>
    suffices hall : ∀ result : List (M × Score S), (result.map Prod.fst).Nodup →
        ((rest.foldl (interSource arith aggregate) result).map Prod.fst).Nodup by
      apply hall
      rw [map_map]
      exact hdistinct first mem_cons_self
    clear hdistinct
    induction rest with
    | nil => exact fun _ h => h
    | cons source rest ih =>
      intro result h
      apply ih
      refine Nodup.sublist (filterMap_keys_sublist (fun p q hpq => ?_) result) h
      obtain ⟨score, -, hq⟩ := Option.map_eq_some_iff.mp hpq
      rw [← hq]

omit [LinearOrder S] in
theorem zdiffCompute_sublist (first : List (M × Score S)) (rest : List (List (M × Score S))) :
    (zdiffCompute (first :: rest)).Sublist first := by
  induction rest generalizing first with
  | nil => exact .refl _
  | cons set rest ih => exact (ih _).trans filter_sublist

end Compute

end Lux.ScoredSets
