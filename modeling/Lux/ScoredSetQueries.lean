import Mathlib.Data.Fintype.Option
import Mathlib.Data.List.Sort
import Lux.ScoredSets
import Lux.MachineRange

/-!
# The queries of sorted sets agree with one order

The tree and the map of a sorted set hold the same pairs after any commands (`Consistent`), so the
tree is the sorted listing of the map. Each query is then a part of that listing: the members of
an interval of scores, a range of positions, the position of a member, or the first or the last
members, which are the ones that a pop takes away.

The one exception is the count of the whole inclusive range, which is read off the map and counts
a score that is no number.
-/

namespace Lux.ScoredSets

open KeyedList IndexRange MachineRange Machine64 List SortedMap ScoredSets.Interval ZSet

variable {S M : Type} [LinearOrder S] [LinearOrder M]

/-! ## The tree and the map -/

/-- The pairs that the map holds, in the order of scores and members. -/
def ZSet.listing (z : ZSet S M) : List (Key S M) :=
  (z.scores.map fun p => toLex (p.2, p.1)).insertionSort (· ≤ ·)

/-- The tree holds what the map holds. -/
structure Consistent (z : ZSet S M) : Prop where
  sorted : SortedMap.Sorted z.tree
  distinct : (z.scores.map Prod.fst).Nodup
  agree : ∀ k, k ∈ z.keys ↔ z.scores.lookup (item k).1 = some (item k).2

theorem consistent_empty : Consistent (empty : ZSet S M) :=
  ⟨Pairwise.nil, nodup_nil, by simp [ZSet.keys, empty]⟩

omit [LinearOrder S] [LinearOrder M] in
theorem eq_of_item {k : Key S M} {member : M} {score : Score S} (hmember : (item k).1 = member)
    (hscore : (item k).2 = score) : k = toLex (score, member) := by
  subst hmember hscore
  rfl

section Writes

variable {z : ZSet S M} {member : M} {previous score : Score S} (h : Consistent z)
include h

/-- Without the pair of a member the tree holds the pairs of the others. -/
theorem mem_removeKey (hmember : z.scores.lookup member = some previous)
    (k : Key S M) :
    k ∈ (z.removeKey member previous).map Prod.fst ↔ k ∈ z.keys ∧ (item k).1 ≠ member := by
  rw [removeKey, mem_keys_remove]
  constructor
  · rintro ⟨hk, hne⟩
    refine ⟨hk, fun hsame => hne ?_⟩
    have hscore := (h.agree k).mp hk
    rw [hsame, hmember] at hscore
    exact eq_of_item hsame (Option.some.inj hscore).symm
  · rintro ⟨hk, hne⟩
    refine ⟨hk, fun hsame => hne ?_⟩
    rw [hsame]
    rfl

/-- A member that the map does not hold has no pair in the tree. -/
theorem ne_of_lookup_eq_none (hmember : z.scores.lookup member = none)
    {k : Key S M} (hk : k ∈ z.keys) : (item k).1 ≠ member := by
  intro hsame
  have hscore := (h.agree k).mp hk
  rw [hsame, hmember] at hscore
  cases hscore

/-- A member gets a score in a tree that holds the pairs of the others. -/
theorem Consistent.assign {others : List (Key S M × Unit)}
    (hsorted : SortedMap.Sorted others)
    (hothers : ∀ k, k ∈ others.map Prod.fst ↔ k ∈ z.keys ∧ (item k).1 ≠ member) :
    Consistent ⟨insert (toLex (score, member)) () others, put z.scores member score⟩ := by
  refine ⟨hsorted.insert _ _, nodup_put h.distinct _ _, fun k => ?_⟩
  rw [ZSet.keys, mem_keys_insert hsorted, hothers, h.agree]
  by_cases hsame : (item k).1 = member
  · rw [hsame, lookup_put_self, Option.some.injEq]
    constructor
    · rintro (rfl | ⟨-, hne⟩)
      · rfl
      · exact absurd rfl hne
    · exact fun hscore => .inl (eq_of_item hsame hscore.symm)
  · rw [lookup_put_of_ne _ _ hsame]
    constructor
    · rintro (rfl | ⟨hk, -⟩)
      · exact absurd rfl hsame
      · exact hk
    · exact fun hk => .inr ⟨hk, hsame⟩

/-- A member goes. -/
theorem Consistent.unassign (hmember : z.scores.lookup member = some previous) :
    Consistent ⟨z.removeKey member previous, erase z.scores member⟩ := by
  refine ⟨h.sorted.remove _, nodup_erase h.distinct _, fun k => ?_⟩
  rw [ZSet.keys, mem_removeKey h hmember, h.agree]
  by_cases hsame : (item k).1 = member
  · rw [hsame, lookup_erase_self]
    simp
  · rw [lookup_erase_of_ne _ hsame]
    exact and_iff_left hsame

theorem Consistent.add (hmember : z.scores.lookup member = none) :
    Consistent (z.add member score) := by
  apply h.assign h.sorted
  exact fun k => (and_iff_left_of_imp fun hk => ne_of_lookup_eq_none h hmember hk).symm

theorem Consistent.rescore (hmember : z.scores.lookup member = some previous) :
    Consistent (z.rescore member previous score) :=
  h.assign (h.sorted.remove _) (mem_removeKey h hmember)

end Writes

variable {z : ZSet S M}

theorem consistent_zaddMember (opts : ZaddOptions) (h : Consistent z) (p : M × Score S) :
    Consistent (zaddMember opts z p).1 := by
  unfold zaddMember
  split
  · rename_i previous hmember
    split
    · exact h
    · split
      · exact h.rescore hmember
      · exact h
  · rename_i hmember
    split
    · exact h
    · exact h.add hmember

theorem consistent_zaddAll (opts : ZaddOptions) (members : List (M × Score S)) :
    ∀ {z : ZSet S M}, Consistent z → Consistent (zaddAll opts z members).1 := by
  induction members with
  | nil => exact fun h => h
  | cons p rest ih => exact fun h => ih (consistent_zaddMember opts h p)

theorem consistent_zincrby (arith : Arith S) (h : Consistent z) (member : M) (increment : Score S) :
    Consistent (zincrby arith z member increment).1 := by
  cases hmember : z.scores.lookup member with
  | some old =>
    simp only [zincrby, hmember, Option.isSome_some, Bool.or_true, if_true]
    exact h.assign (h.sorted.remove _) (mem_removeKey h hmember)
  | none =>
    have hzero : feq (arith.zero : Score S) arith.zero = true := by simp [feq, isNan]
    simp only [zincrby, hmember, Option.getD_none, hzero, Option.isSome_none, Bool.not_true]
    exact h.add hmember

theorem consistent_zrem (members : List M) : ∀ acc : ZSet S M × Nat, Consistent acc.1 →
    Consistent (members.foldl zremMember acc).1 := by
  induction members with
  | nil => exact fun _ h => h
  | cons member rest ih =>
    intro acc h
    apply ih
    unfold zremMember
    split
    · rename_i score hmember
      exact h.unassign hmember
    · exact h

/-- A pair of the tree goes. -/
theorem Consistent.without (h : Consistent z) (k : Key S M) (hk : k ∈ z.keys) (rest)
    (hrest : SortedMap.Sorted z.tree → remove k z.tree = rest) :
    Consistent ⟨rest, erase z.scores (item k).1⟩ := by
  rw [← hrest h.sorted]
  exact h.unassign ((h.agree k).mp hk)

/-- **What `zpopmin` takes and leaves.** -/
theorem zpopmin_spec (count : Nat) : ∀ {z : ZSet S M}, Consistent z →
    Consistent (zpopmin z count).1 ∧ (zpopmin z count).2 = (z.keys.take count).map item ∧
      (zpopmin z count).1.keys = z.keys.drop count := by
  induction count with
  | zero => exact fun h => ⟨h, rfl, rfl⟩
  | succ count ih =>
    intro z h
    cases htree : z.tree with
    | nil => simp [zpopmin, htree, ZSet.keys, h]
    | cons p rest =>
      obtain ⟨k, ⟨⟩⟩ := p
      obtain ⟨hkeep, htaken, hleft⟩ := ih (h.without k (by simp [ZSet.keys, htree]) rest
        (htree ▸ remove_head))
      simp only [zpopmin, htree]
      refine ⟨hkeep, ?_, ?_⟩
      · rw [htaken]
        simp [ZSet.keys, htree]
      · rw [hleft]
        simp [ZSet.keys, htree]

/-- **What `zpopmax` takes and leaves.** -/
theorem zpopmax_spec (count : Nat) : ∀ {z : ZSet S M}, Consistent z →
    Consistent (zpopmax z count).1 ∧
      (zpopmax z count).2 = (z.keys.reverse.take count).map item ∧
      (zpopmax z count).1.keys.reverse = z.keys.reverse.drop count := by
  induction count with
  | zero => exact fun h => ⟨h, rfl, rfl⟩
  | succ count ih =>
    intro z h
    rcases eq_nil_or_concat z.tree with htree | ⟨rest, ⟨k, ⟨⟩⟩, htree⟩
    · simp [zpopmax, htree, ZSet.keys, h]
    rw [concat_eq_append] at htree
    obtain ⟨hkeep, htaken, hleft⟩ := ih (h.without k (by simp [ZSet.keys, htree]) rest
      (htree ▸ remove_last))
    have hlast : z.tree.getLast? = some (k, ()) := by simp [htree]
    have hrest : z.tree.dropLast = rest := by simp [htree]
    simp only [zpopmax, hlast, hrest]
    refine ⟨hkeep, ?_, ?_⟩
    · rw [htaken]
      simp [ZSet.keys, htree]
    · rw [hleft]
      simp [ZSet.keys, htree]

theorem consistent_foldl_add (entries : List (M × Score S)) :
    ∀ {z : ZSet S M}, Consistent z → (entries.map Prod.fst).Nodup →
      (∀ p ∈ entries, z.scores.lookup p.1 = none) →
      Consistent (entries.foldl (fun z p => z.add p.1 p.2) z) := by
  induction entries with
  | nil => exact fun h _ _ => h
  | cons p rest ih =>
    intro z h hdistinct hfresh
    rw [map_cons, nodup_cons] at hdistinct
    refine ih (h.add (hfresh p mem_cons_self)) hdistinct.2 fun q hq => ?_
    have hne : q.1 ≠ p.1 := by
      intro hsame
      exact hdistinct.1 (hsame ▸ mem_map_of_mem hq)
    change (put z.scores p.1 p.2).lookup q.1 = none
    rw [lookup_put_of_ne _ _ hne]
    exact hfresh q (mem_cons_of_mem p hq)

theorem consistent_afterwards {α : Type} (h : Consistent z) {result : Except String (ZSet S M × α)}
    (hresult : ∀ z' a, result = .ok (z', a) → Consistent z') :
    Consistent (afterwards z result) := by
  unfold afterwards
  split
  · exact hresult _ _ rfl
  · exact h

/-- Every command keeps the tree and the map together. -/
theorem consistent_step (arith : Arith S) (z : ZSet S M) (command : Command S M)
    (h : Consistent z) : Consistent (step arith z command) := by
  cases command with
  | zadd opts members =>
    apply consistent_afterwards h
    intro z' n hok
    unfold cmdZadd at hok
    split at hok
    · cases hok
    split at hok
    · cases hok
    · have hset : (zadd opts z members).1 = z' := by rw [Except.ok.inj hok]
      rw [← hset]
      exact consistent_zaddAll opts members h
  | zincrby member increment =>
    apply consistent_afterwards h
    intro z' score hok
    unfold cmdZincrby at hok
    split at hok
    · cases hok
    · have hset : (zincrby arith z member increment).1 = z' := by rw [Except.ok.inj hok]
      rw [← hset]
      exact consistent_zincrby arith h member increment
  | zrem members => exact consistent_zrem members (z, 0) h
  | zpopmin count => exact (zpopmin_spec count h).1
  | zpopmax count => exact (zpopmax_spec count h).1
  | store entries distinct =>
    exact consistent_foldl_add entries consistent_empty distinct fun _ _ => rfl
  | del => exact consistent_empty

theorem Reached.consistent {arith : Arith S} (set : Reached arith M) : Consistent set.zset :=
  Runs.keeps (I := Consistent) (consistent_step arith) consistent_empty set.commands

/-! ## The listing -/

section Listing

variable {z : ZSet S M} (h : Consistent z)
include h

theorem Consistent.keys_sorted : z.keys.Pairwise (· < ·) := h.sorted.keys

theorem Consistent.keys_perm : z.keys.Perm (z.scores.map fun p => toLex (p.2, p.1)) := by
  have hscores : z.scores.Nodup := Nodup.of_map _ h.distinct
  rw [perm_ext_iff_of_nodup]
  · intro k
    rw [h.agree, mem_map]
    constructor
    · exact fun hk => ⟨item k, mem_of_lookup hk, rfl⟩
    · rintro ⟨p, hp, rfl⟩
      exact lookup_of_mem h.distinct hp
  · exact h.keys_sorted.imp ne_of_lt
  · refine hscores.map fun p q heq => ?_
    have hpair : (p.2, p.1) = (q.2, q.1) := toLex.injective heq
    exact Prod.ext (Prod.mk.inj hpair).2 (Prod.mk.inj hpair).1

/-- **The tree is the sorted listing of the map.** -/
theorem Consistent.keys_eq_listing : z.keys = z.listing := by
  apply Perm.eq_of_pairwise' (r := (· ≤ ·))
  · exact h.keys_sorted.imp le_of_lt
  · exact pairwise_insertionSort _ _
  · exact h.keys_perm.trans (perm_insertionSort _ _).symm

theorem Consistent.length_keys : z.keys.length = z.scores.length := by
  rw [h.keys_perm.length_eq, length_map]

/-- A member has one place in the listing. -/
theorem Consistent.members_nodup : (z.keys.map fun k => (item k).1).Nodup := by
  have hmembers := h.keys_perm.map fun k : Key S M => (item k).1
  rw [hmembers.nodup_iff, map_map]
  exact h.distinct

end Listing

/-! ## Positions -/

theorem directed_filter {α : Type} (reverse : Bool) (p : α → Bool) (l : List α) :
    directed reverse (l.filter p) = (directed reverse l).filter p := by
  cases reverse
  · rfl
  · exact filter_reverse.symm

/-- A range of the tree is the part of its pairs between the ends. -/
theorem exists_range (lower upper : SortedMap.Bound (Key S M))
    (hordered : disordered lower upper = false) :
    ∃ range, rangeBetween lower upper z.tree = some range ∧
      range.map Prod.fst = z.keys.filter fun k => lower.above k && upper.below k := by
  rw [rangeBetween, hordered]
  refine ⟨_, rfl, ?_⟩
  rw [ZSet.keys, filter_map]
  rfl

/-- **`ZRANK` is the position of the member.** -/
theorem zrank_eq (h : Consistent z) (member : M) (reverse : Bool) :
    zrank z member reverse =
      some ((directed reverse z.keys).findIdx? fun k => (item k).1 = member) := by
  unfold zrank
  cases hmember : z.scores.lookup member with
  | none =>
    have hnone : (directed reverse z.keys).findIdx? (fun k => (item k).1 = member) = none := by
      rw [findIdx?_eq_none_iff]
      intro k hk
      have hmem : k ∈ z.keys := by cases reverse <;> simpa [directed] using hk
      exact decide_eq_false (ne_of_lookup_eq_none h hmember hmem)
    simp [hnone]
  | some score =>
    have hk : (toLex (score, member) : Key S M) ∈ z.keys := (h.agree _).mpr hmember
    obtain ⟨range, hrange, hkeys⟩ := exists_range (z := z) .unbounded
      (.excluded (toLex (score, member))) rfl
    have hrank := getElem?_rank h.keys_sorted hk
    have hlength : range.length = (z.keys.filter fun k => k < toLex (score, member)).length := by
      rw [← length_map Prod.fst, hkeys]
      rfl
    rw [← hlength] at hrank
    have hlt : range.length < z.keys.length := (List.getElem?_eq_some_iff.mp hrank).1
    have hsize : z.tree.length = z.keys.length := (length_map _).symm
    simp only [hrange, Option.map_some, Option.some.injEq, hsize]
    cases reverse with
    | false =>
      exact (findIdx?_of_getElem? (fun k : Key S M => (item k).1) h.members_nodup hrank).symm
    | true =>
      have hback : z.keys.reverse[z.keys.length - 1 - range.length]? =
          some (toLex (score, member)) := by
        rw [getElem?_reverse (by omega), ← hrank]
        congr 1
        omega
      have hdistinct : (z.keys.reverse.map fun k => (item k).1).Nodup := by
        rw [map_reverse, nodup_reverse]
        exact h.members_nodup
      exact (findIdx?_of_getElem? (fun k : Key S M => (item k).1) hdistinct hback).symm

omit [LinearOrder S] [LinearOrder M] in
theorem length_directed {α : Type} (reverse : Bool) (l : List α) :
    (directed reverse l).length = l.length := by
  cases reverse
  · rfl
  · exact length_reverse

omit [LinearOrder S] [LinearOrder M] in
/-- **`ZRANGE` is the range of positions**, for every pair of 64-bit integers. -/
theorem zrange_eq (hfits : z.tree.length < 2 ^ 63) (start stop : Int64) (reverse : Bool) :
    zrange z start stop reverse =
      (between (directed reverse z.keys) start.toInt stop.toInt).map item := by
  have hlen : (directed reverse z.keys).length = z.tree.length := by
    rw [length_directed, ZSet.keys, length_map]
  have hfirst := cut_first hfits start
  have hlast := cut_behind hfits stop
  rw [← hlen] at hfirst hlast
  unfold zrange
  rw [← hlen]
  simp only [hfirst]
  have hcut : min (min (resolve (directed reverse z.keys).length start.toInt).toNat
      (directed reverse z.keys).length) (directed reverse z.keys).length =
        min (resolve (directed reverse z.keys).length start.toInt).toNat
          (directed reverse z.keys).length := Nat.min_eq_left (Nat.min_le_right _ _)
  generalize (if stop.toInt < 0 then _ else _) = last at hlast ⊢
  split
  · rename_i hle
    rw [between_eq_nil hcut hlast hle, map_nil]
  · rw [← drop_take, piece_eq_between hcut hlast]

/-! ## Intervals of scores -/

section Intervals

variable [BoundedOrder S] [SuccOrder S] [OrderBot M]

omit [BoundedOrder S] [SuccOrder S] in
theorem lt_bot_pair {k : Key S M} {a : Score S} : k < toLex (a, ⊥) ↔ (ofLex k).1 < a := by
  rw [Prod.Lex.lt_iff]
  simp

omit [BoundedOrder S] [SuccOrder S] in
theorem bot_pair_le {k : Key S M} {a : Score S} : toLex (a, ⊥) ≤ k ↔ a ≤ (ofLex k).1 := by
  rw [← not_lt, lt_bot_pair, not_lt]

omit [OrderBot M] [LinearOrder M] in
/-- The next number is the least one above. -/
theorem nextUp_le {a : S} (ha : a ≠ ⊤) {s : Score S} :
    nextUp (a : Score S) ≤ s ↔ (a : Score S) < s := by
  have hmax : ¬ IsMax a := by rwa [isMax_iff_eq_top]
  induction s using WithTop.recTopCoe with
  | top => simp
  | coe b =>
    rw [nextUp, WithTop.map_coe, WithTop.coe_le_coe, WithTop.coe_lt_coe]
    exact Order.succ_le_iff_of_not_isMax hmax

/-- The upper end is behind the numbers up to the bound. -/
theorem below_scoreUpperBound {max : S} {k : Key S M} :
    (scoreUpperBound (max : Score S) false).below k = true ↔
      (ofLex k).1 ≠ ⊤ ∧ (ofLex k).1 ≤ (max : Score S) := by
  by_cases htop : max = ⊤
  · subst htop
    simp only [scoreUpperBound, Bool.false_eq_true, if_false, feq, isNan, WithTop.coe_ne_top,
      decide_false, decide_true, Bool.not_false, Bool.and_true, if_true, SortedMap.Bound.below,
      decide_eq_true_eq, lt_bot_pair, lt_top_iff_ne_top]
    refine (and_iff_left_of_imp fun hne => ?_).symm
    obtain ⟨a, ha⟩ := WithTop.ne_top_iff_exists.mp hne
    rw [← ha, WithTop.coe_le_coe]
    exact le_top
  · have hne : (max : Score S) ≠ ((⊤ : S) : Score S) := fun h => htop (WithTop.coe_injective h)
    simp only [scoreUpperBound, Bool.false_eq_true, if_false, feq, hne, decide_false,
      Bool.and_false, SortedMap.Bound.below, decide_eq_true_eq, lt_bot_pair]
    rw [← not_le, nextUp_le htop, not_lt]
    refine (and_iff_right_of_imp fun hle => ?_).symm
    exact ne_top_of_le_ne_top WithTop.coe_ne_top hle

/-- A score lies in the interval. -/
def Interval.Contains (i : Interval S) (score : Score S) : Prop :=
  score ≠ ⊤ ∧ (if i.minExclusive then i.min < score else i.min ≤ score) ∧
    (if i.maxExclusive then score < i.max else score ≤ i.max)

instance (i : Interval S) (score : Score S) : Decidable (i.Contains score) :=
  inferInstanceAs (Decidable (_ ∧ _ ∧ _))

/-- The whole range, with both ends. -/
def Interval.IsWhole (i : Interval S) : Prop :=
  i.min = ((⊥ : S) : Score S) ∧ i.max = ((⊤ : S) : Score S) ∧ i.minExclusive = false ∧
    i.maxExclusive = false

instance (i : Interval S) : Decidable i.IsWhole := inferInstanceAs (Decidable (_ ∧ _ ∧ _ ∧ _))

/-- A query refuses bounds that are no numbers. -/
def Interval.refusing {α : Type} (i : Interval S) (answer : α) : Except String α :=
  if i.min = ⊤ ∨ i.max = ⊤ then .error notFloatErr else .ok answer

/-- A page of a list. -/
def window {α : Type} (offset count : Option Nat) (l : List α) : List α :=
  count.elim (l.drop (offset.getD 0)) (l.drop (offset.getD 0)).take

/-- The tree never refuses a range whose lower end is not above the bound of the upper one. -/
theorem not_disordered {start : Score S} {max : S} (hle : start ≤ max) (exclusive : Bool) :
    disordered (.included (toLex (start, (⊥ : M)))) (scoreUpperBound max exclusive) =
      false := by
  have hends : ∀ e : Score S, (max : Score S) ≤ e →
      disordered (.included (toLex (start, (⊥ : M)))) (.excluded (toLex (e, ⊥))) =
        false := by
    intro e he
    rw [disordered, decide_eq_false_iff_not, lt_bot_pair, not_lt]
    exact hle.trans he
  unfold scoreUpperBound
  split
  · exact hends _ le_rfl
  · split
    · exact hends _ le_top
    · exact hends _ (WithTop.coe_le_coe.mpr (Order.le_succ max))

omit [BoundedOrder S] [SuccOrder S] in
theorem passes_iff {i : Interval S} (hmin : i.min ≠ ⊤) (hmax : i.max ≠ ⊤) {score : Score S} :
    i.passes score = true ↔ i.Contains score := by
  unfold passes Interval.Contains
  by_cases hscore : score = ⊤
  · subst hscore
    cases i.minExclusive <;> simp [flt, fle, isNan]
  · cases i.minExclusive <;> cases i.maxExclusive <;> simp [flt, fle, isNan, hmin, hmax, hscore]

omit [LinearOrder M] [BoundedOrder S] [SuccOrder S] [OrderBot M] in
/-- Bounds out of order leave no score between them. -/
theorem filter_contains_eq_nil {i : Interval S} (h : i.isEmpty = true) (l : List (Key S M)) :
    (l.filter fun k => i.Contains (ofLex k).1) = [] := by
  rw [filter_eq_nil_iff]
  intro k _ hk
  obtain ⟨-, hlow, hhigh⟩ := of_decide_eq_true hk
  generalize (ofLex k).1 = score at hlow hhigh
  have hle : i.min ≤ i.max := by
    have hmin : i.min ≤ score := by split at hlow; exacts [le_of_lt hlow, hlow]
    have hmax : score ≤ i.max := by split at hhigh; exacts [le_of_lt hhigh, hhigh]
    exact hmin.trans hmax
  simp only [Interval.isEmpty, flt, feq, Bool.or_eq_true, Bool.and_eq_true, decide_eq_true_eq] at h
  rcases h with ⟨-, hlt⟩ | ⟨⟨-, heq⟩, hexcl⟩
  · exact absurd hle (not_le.mpr hlt)
  rw [heq] at hlow
  rcases hexcl with hexcl | hexcl
  · rw [if_pos hexcl] at hlow
    split at hhigh
    exacts [lt_asymm hlow hhigh, absurd hhigh (not_le.mpr hlow)]
  · rw [if_pos hexcl] at hhigh
    split at hlow
    exacts [lt_asymm hlow hhigh, absurd hlow (not_le.mpr hhigh)]

omit [BoundedOrder S] [SuccOrder S] in
theorem le_of_not_isEmpty {i : Interval S} (hmin : i.min ≠ ⊤) (hmax : i.max ≠ ⊤)
    (h : i.isEmpty = false) : i.min ≤ i.max ∧
      (i.minExclusive = true ∨ i.maxExclusive = true → i.min < i.max) := by
  simp only [Interval.isEmpty, flt, feq, isNan, hmin, hmax, decide_false, Bool.not_false,
    Bool.true_and, Bool.or_eq_false_iff, Bool.and_eq_false_iff, decide_eq_false_iff_not,
    not_lt] at h
  refine ⟨h.1, fun hexcl => lt_of_le_of_ne h.1 fun heq => ?_⟩
  rcases h.2 with hne | hnone
  · exact hne heq
  · simp_all

/-! ## Queries -/

section Queries

variable {z : ZSet S M}

/-- **`ZRANGEBYSCORE` lists the members whose scores lie in the interval.** -/
theorem zrangebyscore_eq (i : Interval S) (reverse : Bool) (offset count : Option Nat) :
    zrangebyscore z i reverse offset count = some (i.refusing ((window offset count
      ((directed reverse z.keys).filter fun k => i.Contains (ofLex k).1)).map item)) := by
  unfold zrangebyscore refusing
  by_cases hnan : i.min = ⊤ ∨ i.max = ⊤
  · rw [if_pos hnan, if_pos (by simpa [isNan] using hnan)]
  rw [if_neg hnan, if_neg (by simpa [isNan] using hnan)]
  obtain ⟨hmin, hmax⟩ := not_or.mp hnan
  cases hempty : i.isEmpty with
  | true =>
    rw [filter_contains_eq_nil hempty]
    cases count <;> simp [window]
  | false =>
    obtain ⟨hle, -⟩ := le_of_not_isEmpty hmin hmax hempty
    obtain ⟨max, hbound⟩ := WithTop.ne_top_iff_exists.mp hmax
    rw [← hbound] at hle
    obtain ⟨range, hrange, hkeys⟩ := exists_range (z := z) _ _ (not_disordered (M := M) hle false)
    rw [hbound] at hrange hkeys
    rw [hrange, Option.map_some, hkeys, directed_filter, filter_filter]
    -- What passes the filter lies between the ends of the range.
    have hsame : ∀ k ∈ directed reverse z.keys,
        (i.passes (ofLex k).1 && ((SortedMap.Bound.included (toLex (i.min, ⊥))).above k &&
          (scoreUpperBound i.max false).below k)) = decide (i.Contains (ofLex k).1) := by
      intro k _
      rw [Bool.eq_iff_iff, Bool.and_eq_true, Bool.and_eq_true, passes_iff hmin hmax,
        decide_eq_true_eq, ← hbound, below_scoreUpperBound, SortedMap.Bound.above,
        decide_eq_true_eq, bot_pair_le, hbound]
      refine and_iff_left_of_imp fun hcontains => ?_
      obtain ⟨hnum, hlow, hhigh⟩ := hcontains
      refine ⟨?_, hnum, ?_⟩
      · split at hlow; exacts [le_of_lt hlow, hlow]
      · split at hhigh; exacts [le_of_lt hhigh, hhigh]
    rw [filter_congr hsame]
    rfl

/-- A score that is no number is stored. -/
def ZSet.HoldsNan (z : ZSet S M) : Prop := ∃ p ∈ z.scores, p.2 = ⊤

instance (z : ZSet S M) : Decidable z.HoldsNan := inferInstanceAs (Decidable (∃ p ∈ z.scores, _))

/-- Between the ends of the range of `zcount` lie the scores of the interval. -/
theorem count_ends_iff {i : Interval S} {min max : S} (hmin : (min : Score S) = i.min)
    (hmax : (max : Score S) = i.max)
    (hexcl : i.minExclusive = true ∨ i.maxExclusive = true → i.min < i.max) (k : Key S M) :
    ((SortedMap.Bound.included
        (toLex (if i.minExclusive then nextUp i.min else i.min, ⊥))).above k &&
      (scoreUpperBound i.max i.maxExclusive).below k) = true ↔ i.Contains (ofLex k).1 := by
  have hlow : (if i.minExclusive then nextUp i.min else i.min) ≤ (ofLex k).1 ↔
      (if i.minExclusive then i.min < (ofLex k).1 else i.min ≤ (ofLex k).1) := by
    split
    · rename_i hmore
      have hlt := hexcl (.inl hmore)
      rw [← hmin, ← hmax, WithTop.coe_lt_coe] at hlt
      rw [← hmin]
      exact nextUp_le (ne_top_of_lt hlt)
    · exact Iff.rfl
  rw [Bool.and_eq_true, SortedMap.Bound.above, decide_eq_true_eq, bot_pair_le, hlow,
    Interval.Contains]
  cases hless : i.maxExclusive with
  | false =>
    rw [← hmax, below_scoreUpperBound]
    exact and_left_comm
  | true =>
    simp only [scoreUpperBound, if_true, SortedMap.Bound.below, decide_eq_true_eq, lt_bot_pair]
    have hnum : (ofLex k).1 < i.max → (ofLex k).1 ≠ ⊤ := fun hlt => ne_top_of_lt hlt
    tauto

/-- **`ZCOUNT` counts the members whose scores lie in the interval**, but for the whole range with
a score that is no number. -/
theorem zcount_iff (h : Consistent z) (i : Interval S) :
    zcount z i = some (i.refusing (z.keys.filter fun k => i.Contains (ofLex k).1).length) ↔
      ¬ (i.IsWhole ∧ z.HoldsNan) := by
  by_cases hwhole : i.IsWhole
  · obtain ⟨hmin, hmax, hmore, hless⟩ := id hwhole
    have hcount : zcount z i = some (.ok z.scores.length) := by
      simp [zcount, hmin, hmax, hmore, hless, isNan, flt, feq]
    have hcontains : ∀ k : Key S M, i.Contains (ofLex k).1 ↔ (ofLex k).1 ≠ ⊤ := by
      intro k
      rw [Interval.Contains, hmin, hmax, hmore, hless, if_neg Bool.false_ne_true]
      refine and_iff_left_of_imp fun hnum => ?_
      obtain ⟨a, ha⟩ := WithTop.ne_top_iff_exists.mp hnum
      rw [← ha, WithTop.coe_le_coe, WithTop.coe_le_coe]
      exact ⟨bot_le, le_top⟩
    have hnan : z.HoldsNan ↔ ∃ k ∈ z.keys, (ofLex k).1 = ⊤ := by
      simp only [h.keys_perm.mem_iff, mem_map]
      constructor
      · rintro ⟨p, hp, htop⟩
        exact ⟨_, ⟨p, hp, rfl⟩, htop⟩
      · rintro ⟨_, ⟨p, hp, rfl⟩, htop⟩
        exact ⟨p, hp, htop⟩
    rw [hcount, refusing, if_neg (by simp [hmin, hmax]), Option.some.injEq,
      Except.ok.injEq, ← h.length_keys, eq_comm, length_filter_eq_length_iff,
      and_iff_right hwhole, hnan]
    simp only [decide_eq_true_eq, hcontains, not_exists, not_and]
  refine iff_of_true ?_ fun hboth => hwhole hboth.1
  unfold zcount refusing
  by_cases hnan : i.min = ⊤ ∨ i.max = ⊤
  · rw [if_pos hnan, if_pos (by simpa [isNan] using hnan)]
  rw [if_neg hnan, if_neg (by simpa [isNan] using hnan)]
  obtain ⟨hmin, hmax⟩ := not_or.mp hnan
  cases hempty : i.isEmpty with
  | true =>
    rw [filter_contains_eq_nil hempty, length_nil]
    rw [Interval.isEmpty, Bool.or_eq_true] at hempty
    by_cases hless : flt i.max i.min = true
    · rw [if_pos hless]
    · rw [if_neg hless, if_pos (hempty.resolve_left hless)]
  | false =>
    obtain ⟨hle, hexcl⟩ := le_of_not_isEmpty hmin hmax hempty
    rw [Interval.isEmpty, Bool.or_eq_false_iff] at hempty
    have hpart : ¬ (feq i.min ((⊥ : S) : Score S) && feq i.max ((⊤ : S) : Score S) &&
        !i.minExclusive && !i.maxExclusive) = true := by
      intro hall
      simp only [feq, Bool.and_eq_true, decide_eq_true_eq, Bool.not_eq_true'] at hall
      exact hwhole ⟨hall.1.1.1.2, hall.1.1.2.2, hall.1.2, hall.2⟩
    obtain ⟨min, hlow⟩ := WithTop.ne_top_iff_exists.mp hmin
    obtain ⟨max, hbound⟩ := WithTop.ne_top_iff_exists.mp hmax
    have hstart : (if i.minExclusive then nextUp i.min else i.min) ≤ i.max := by
      split
      · rename_i hmore
        have hlt := hexcl (.inl hmore)
        rw [← hlow, ← hbound, WithTop.coe_lt_coe] at hlt
        rw [← hlow, nextUp_le (ne_top_of_lt hlt), ← hbound, WithTop.coe_lt_coe]
        exact hlt
      · exact hle
    rw [← hbound] at hstart
    obtain ⟨range, hrange, hkeys⟩ := exists_range (z := z) _ _
      (not_disordered (M := M) hstart i.maxExclusive)
    rw [hbound] at hrange hkeys
    rw [hempty.1, hempty.2, if_neg Bool.false_ne_true,
      if_neg hpart, hrange, Option.map_some, ← length_map Prod.fst, hkeys]
    refine congrArg (fun l => some (Except.ok (length l))) (filter_congr ?_)
    intro k _
    rw [Bool.eq_iff_iff, count_ends_iff hlow hbound hexcl, decide_eq_true_eq]

/-- `zvisit_scores_inclusive` visits what `ZRANGEBYSCORE` lists for the inclusive interval. -/
theorem zvisitScoresInclusive_eq (min max : Score S) :
    zvisitScoresInclusive z min max = zrangebyscore z ⟨min, max, false, false⟩ false none none := by
  rw [zrangebyscore_eq]
  unfold zvisitScoresInclusive refusing
  by_cases hnan : min = ⊤ ∨ max = ⊤
  · rw [if_pos hnan, if_pos (by simpa [isNan] using hnan)]
  rw [if_neg hnan, if_neg (by simpa [isNan] using hnan)]
  obtain ⟨hmin, hmax⟩ := not_or.mp hnan
  by_cases hless : flt max min = true
  · have hempty : (mk min max false false).isEmpty = true := by
      rw [Interval.isEmpty, hless, Bool.true_or]
    rw [if_pos hless, directed, if_neg Bool.false_ne_true, filter_contains_eq_nil hempty]
    rfl
  rw [if_neg hless]
  have hle : min ≤ max := by simpa [flt, isNan, hmin, hmax] using hless
  obtain ⟨a, ha⟩ := WithTop.ne_top_iff_exists.mp hmin
  obtain ⟨b, hb⟩ := WithTop.ne_top_iff_exists.mp hmax
  rw [← hb] at hle
  obtain ⟨range, hrange, hkeys⟩ := exists_range (z := z) _ _ (not_disordered (M := M) hle false)
  rw [hb] at hrange hkeys
  have hsame := filter_congr (l := z.keys) fun k _ => Bool.eq_iff_iff.mpr
    ((count_ends_iff (i := ⟨min, max, false, false⟩) ha hb (by simp) k).trans
      decide_eq_true_iff.symm)
  rw [hrange, Option.map_some, ← Function.comp_def item Prod.fst, ← map_map, hkeys]
  exact congrArg (fun l => some (Except.ok (map item l))) hsame

end Queries

/-! ## Agreement -/

/-- The arguments of one query of each kind. -/
structure Query (S M : Type) where
  interval : Interval S
  reverse : Bool
  offset : Option Nat
  count : Option Nat
  member : M
  start : Int64
  stop : Int64
  pops : Nat
  min : Bool

/-- `zpopmin` or `zpopmax`. -/
def pop (z : ZSet S M) (min : Bool) (count : Nat) : ZSet S M × List (M × Score S) :=
  if min then zpopmin z count else zpopmax z count

/-- The queries agree with the listing. -/
structure Agree (z : ZSet S M) (q : Query S M) : Prop where
  byScore : zrangebyscore z q.interval q.reverse q.offset q.count =
    some (q.interval.refusing ((window q.offset q.count
      ((directed q.reverse z.listing).filter fun k => q.interval.Contains (ofLex k).1)).map item))
  visited : zvisitScoresInclusive z q.interval.min q.interval.max =
    zrangebyscore z ⟨q.interval.min, q.interval.max, false, false⟩ false none none
  counted : zcount z q.interval =
    (zrangebyscore z q.interval q.reverse none none).map fun reply => reply.map List.length
  countedOnShard : some (zcountOnShard z q.interval) =
    (zrangebyscore z q.interval q.reverse none none).map fun reply => reply.map List.length
  ranked : zrank z q.member q.reverse =
    some ((zrange z 0 (-1) q.reverse).findIdx? fun p => p.1 = q.member)
  sliced : zrange z q.start q.stop q.reverse =
    (between (directed q.reverse z.listing) q.start.toInt q.stop.toInt).map item
  previewed : previewZpop z q.pops q.min =
    ((directed (!q.min) z.listing).take q.pops).map item
  popped : (pop z q.min q.pops).2 = previewZpop z q.pops q.min
  left : directed (!q.min) (pop z q.min q.pops).1.listing =
    (directed (!q.min) z.listing).drop q.pops

omit [BoundedOrder S] [SuccOrder S] [OrderBot M] in
theorem pop_spec {z : ZSet S M} (h : Consistent z) (min : Bool) (count : Nat) :
    (pop z min count).2 = ((directed (!min) z.keys).take count).map item ∧
      directed (!min) (pop z min count).1.listing = (directed (!min) z.keys).drop count := by
  cases min with
  | true =>
    obtain ⟨hkeep, htaken, hleft⟩ := zpopmin_spec count h
    exact ⟨htaken, hkeep.keys_eq_listing.symm.trans hleft⟩
  | false =>
    obtain ⟨hkeep, htaken, hleft⟩ := zpopmax_spec count h
    exact ⟨htaken, (congrArg reverse hkeep.keys_eq_listing).symm.trans hleft⟩

/-- How many members a range lists. -/
theorem length_zrangebyscore (z : ZSet S M) (i : Interval S) (reverse : Bool) :
    ((zrangebyscore z i reverse none none).map fun reply => reply.map length) =
      some (i.refusing (z.keys.filter fun k => i.Contains (ofLex k).1).length) := by
  rw [zrangebyscore_eq, ← directed_filter, refusing, refusing]
  split
  · rfl
  · simp [Except.map, window, length_directed]

theorem counted_iff {z : ZSet S M} (h : Consistent z) (i : Interval S) (reverse : Bool) :
    (zcount z i = (zrangebyscore z i reverse none none).map fun reply => reply.map List.length) ↔
      ¬ (i.IsWhole ∧ z.HoldsNan) := by
  rw [length_zrangebyscore]
  exact zcount_iff h i

/-- The comparison of every score counts what the range lists. -/
theorem zcountOnShard_eq {z : ZSet S M} (h : Consistent z) (i : Interval S) (reverse : Bool) :
    some (zcountOnShard z i) =
      (zrangebyscore z i reverse none none).map fun reply => reply.map List.length := by
  rw [length_zrangebyscore, zcountOnShard, refusing]
  by_cases hnan : i.min = ⊤ ∨ i.max = ⊤
  · rw [if_pos hnan, if_pos (by simpa [isNan] using hnan)]
  rw [if_neg hnan, if_neg (by simpa [isNan] using hnan)]
  obtain ⟨hmin, hmax⟩ := not_or.mp hnan
  rw [← countP_eq_length_filter, h.keys_perm.countP_eq, countP_map]
  refine congrArg (fun n => some (Except.ok n)) (countP_congr fun p _ => ?_)
  rw [passes_iff hmin hmax]
  exact decide_eq_true_iff.symm

/-- **The queries of a sorted set agree with one order**, after any commands and for all arguments,
unless the whole range is counted while a score is stored that is no number. -/
theorem queries_agree_iff {arith : Arith S} (set : Reached arith M) (q : Query S M) :
    Agree set.zset q ↔ ¬ (q.interval.IsWhole ∧ set.zset.HoldsNan) := by
  have h := set.consistent
  have hlisting := h.keys_eq_listing
  have hfits : set.zset.tree.length < 2 ^ 63 := set.fits
  constructor
  · exact fun hagree => (counted_iff h q.interval q.reverse).mp hagree.counted
  · intro hcond
    obtain ⟨htaken, hleft⟩ := pop_spec h q.min q.pops
    refine ⟨?_, zvisitScoresInclusive_eq _ _, (counted_iff h _ _).mpr hcond,
      zcountOnShard_eq h _ _, ?_, ?_, ?_, ?_, ?_⟩
    · rw [← hlisting]
      exact zrangebyscore_eq _ _ _ _
    · rw [zrank_eq h, zrange_eq hfits, show (0 : Int64).toInt = 0 from rfl,
        show (-1 : Int64).toInt = -1 from rfl, between_all, findIdx?_map]
      rfl
    · rw [← hlisting]
      exact zrange_eq hfits _ _ _
    · rw [← hlisting]
      rfl
    · exact htaken
    · rw [hleft, hlisting]

end Intervals

/-! ## A score that is no number -/

/-- Three finite numbers between two infinite ones. -/
inductive Five where
  | negInf
  | negOne
  | zero
  | one
  | inf
  deriving DecidableEq

namespace Five

instance : Fintype Five where
  elems := ⟨[negInf, negOne, zero, one, inf], by decide⟩
  complete := by
    intro a
    cases a <;> decide

def rank : Five → Nat
  | negInf => 0
  | negOne => 1
  | zero => 2
  | one => 3
  | inf => 4

theorem rank_injective : Function.Injective rank := by decide

instance : LinearOrder Five := LinearOrder.lift' rank rank_injective

instance : BoundedOrder Five where
  top := inf
  bot := negInf
  le_top := by decide
  bot_le := by decide

def succ : Five → Five
  | negInf => negOne
  | negOne => zero
  | zero => one
  | one => inf
  | inf => inf

instance : SuccOrder Five where
  succ := succ
  le_succ := by decide
  max_of_succ_le := by
    intro a h
    cases a with
    | inf => exact fun b _ => le_top
    | _ => exact absurd h (by decide)
  succ_le_of_lt := by
    intro a b
    revert a b
    decide

/-- Finite sums are cut to the finite numbers, and opposite infinities have no sum. -/
def add : Five → Five → Score Five
  | negInf, inf => ⊤
  | inf, negInf => ⊤
  | negInf, _ => negInf
  | _, negInf => negInf
  | inf, _ => inf
  | _, inf => inf
  | zero, b => b
  | a, zero => a
  | one, one => one
  | negOne, negOne => negOne
  | _, _ => zero

def neg : Five → Five
  | negInf => inf
  | negOne => one
  | zero => zero
  | one => negOne
  | inf => negInf

/-- An infinite number times zero is none. -/
def mul : Five → Five → Score Five
  | inf, zero => ⊤
  | negInf, zero => ⊤
  | zero, inf => ⊤
  | zero, negInf => ⊤
  | zero, _ => zero
  | _, zero => zero
  | one, b => b
  | negOne, b => neg b
  | a, one => a
  | a, negOne => neg a
  | inf, b => b
  | negInf, b => neg b

/-- The arithmetic with a value that is no number. -/
def arith : Arith Five where
  zero := zero
  one := one
  add := fun a b => a.bind fun a => b.bind fun b => add a b
  mul := fun a b => a.bind fun a => b.bind fun b => mul a b

end Five

/-- `ZADD key inf m`, then `ZINCRBY key -inf m`. -/
def cancelled : Reached Five.arith Nat :=
  ⟨[.zadd ⟨false, false, false, false, false⟩ [(7, Five.inf)], .zincrby 7 Five.negInf], by decide⟩

/-- All numbers, infinite ones included. -/
def wholeRange : Interval Five := ⟨Five.negInf, Five.inf, false, false⟩

/-- The whole range counts one member, or none on the shard, and lists none. -/
theorem whole_count_stray :
    zcount cancelled.zset wholeRange = some (.ok 1) ∧
      zcountOnShard cancelled.zset wholeRange = .ok 0 ∧
      zrangebyscore cancelled.zset wholeRange false none none = some (.ok []) ∧
      ¬ Agree cancelled.zset ⟨wholeRange, false, none, none, 7, 0, 0, 0, true⟩ := by
  have hcount : zcount cancelled.zset wholeRange = some (.ok 1) := by rfl
  have hlist : zrangebyscore cancelled.zset wholeRange false none none = some (.ok []) := by rfl
  refine ⟨hcount, rfl, hlist, fun hagree => ?_⟩
  have hcounted := hagree.counted
  exact absurd (Except.ok.inj (Option.some.inj hcounted)) (by decide)

end Lux.ScoredSets
