import Mathlib.Order.Lattice
import Mathlib.Data.List.Basic

/-!
# Ordered maps as sorted lists

An ordered map is the list of its bindings in increasing order of their keys. Insertion
replaces a binding of the same key, and a range is the part of the list between its bounds.
A range whose first bound is above its last one is refused: the standard ordered map stops
there instead of returning nothing, and `range` returns nothing at all.
-/

namespace SortedMap

open List

variable {κ ν : Type}

/-- The first bindings are dropped until at most `limit` are left. -/
def trim (limit : Nat) : List (κ × ν) → List (κ × ν)
  | [] => []
  | p :: rest => if limit < (p :: rest).length then trim limit rest else p :: rest

theorem trim_sublist (limit : Nat) (map : List (κ × ν)) : (trim limit map).Sublist map := by
  induction map with
  | nil => exact .refl []
  | cons p rest ih =>
    rw [trim]
    split
    · exact Sublist.cons p ih
    · exact .refl _

variable [LinearOrder κ]

/-- The keys increase strictly. -/
def Sorted (map : List (κ × ν)) : Prop := map.Pairwise fun a b => a.1 < b.1

/-- Insertion, in place of a binding of the same key. -/
def insert (key : κ) (value : ν) : List (κ × ν) → List (κ × ν)
  | [] => [(key, value)]
  | (k, v) :: rest =>
    if key < k then (key, value) :: (k, v) :: rest
    else if key = k then (key, value) :: rest
    else (k, v) :: insert key value rest

def remove (key : κ) (map : List (κ × ν)) : List (κ × ν) := map.filter fun p => p.1 != key

/-- The bindings from a key on. -/
def rangeFrom (start : κ) (map : List (κ × ν)) : List (κ × ν) :=
  map.filter fun p => start ≤ p.1

/-- The bindings between two keys, both included, provided the bounds are in order. -/
def range (start stop : κ) (map : List (κ × ν)) : Option (List (κ × ν)) :=
  if stop < start then none else some (map.filter fun p => start ≤ p.1 ∧ p.1 ≤ stop)

/-- One end of a range. -/
inductive Bound (κ : Type) where
  | included (key : κ)
  | excluded (key : κ)
  | unbounded
  deriving DecidableEq

/-- The key is not below the lower end. -/
def Bound.above : Bound κ → κ → Bool
  | .included start, key => start ≤ key
  | .excluded start, key => start < key
  | .unbounded, _ => true

/-- The key is not above the upper end. -/
def Bound.below : Bound κ → κ → Bool
  | .included stop, key => key ≤ stop
  | .excluded stop, key => key < stop
  | .unbounded, _ => true

/-- The lower end lies above the upper one, or both exclude the same key. -/
def disordered : Bound κ → Bound κ → Bool
  | .included start, .included stop => stop < start
  | .included start, .excluded stop => stop < start
  | .excluded start, .included stop => stop < start
  | .excluded start, .excluded stop => stop ≤ start
  | _, _ => false

/-- The bindings between two ends, provided that they are in order. -/
def rangeBetween (lower upper : Bound κ) (map : List (κ × ν)) : Option (List (κ × ν)) :=
  if disordered lower upper then none
  else some (map.filter fun p => lower.above p.1 && upper.below p.1)

variable {map : List (κ × ν)}

theorem Sorted.of_sublist {part : List (κ × ν)} (h : Sorted map) (hpart : part.Sublist map) :
    Sorted part :=
  Pairwise.sublist hpart h

theorem Sorted.keys (h : Sorted map) : (map.map Prod.fst).Pairwise (· < ·) :=
  pairwise_map.mpr h

variable {p : κ × ν} {value : ν}

theorem mem_insert {key : κ} (h : p ∈ insert key value map) :
    p = (key, value) ∨ p ∈ map := by
  induction map with
  | nil => exact .inl (mem_singleton.mp h)
  | cons q rest ih =>
    rw [insert] at h
    split at h
    · exact mem_cons.mp h
    · split at h
      · grind
      · grind

theorem mem_insert_iff {key : κ} (h : Sorted map) :
    p ∈ insert key value map ↔ p = (key, value) ∨ p ∈ map ∧ p.1 ≠ key := by
  induction map with
  | nil => simp [insert]
  | cons q rest ih =>
    obtain ⟨k, v⟩ := q
    obtain ⟨hfirst, hrest⟩ := pairwise_cons.mp h
    rw [insert]
    split
    · -- Everything that was there lies above the new key.
      rename_i hlt
      have hne : ∀ p ∈ (k, v) :: rest, p.1 ≠ key := by
        intro p hp
        rcases mem_cons.mp hp with rfl | hp
        · exact ne_of_gt hlt
        · exact ne_of_gt (lt_trans hlt (hfirst p hp))
      rw [mem_cons]
      constructor
      · exact fun hp => hp.imp_right fun hmem => ⟨hmem, hne p hmem⟩
      · exact fun hp => hp.imp_right fun hmem => hmem.1
    · split
      · rename_i heq
        grind
      · rw [mem_cons, ih hrest]
        grind

theorem mem_keys_insert {key k : κ} (h : Sorted map) :
    k ∈ (insert key value map).map Prod.fst ↔ k = key ∨ k ∈ map.map Prod.fst := by
  simp only [mem_map, mem_insert_iff h]
  grind

theorem mem_keys_remove {key k : κ} :
    k ∈ (remove key map).map Prod.fst ↔ k ∈ map.map Prod.fst ∧ k ≠ key := by
  simp only [remove, mem_map, mem_filter]
  grind

theorem Sorted.remove (h : Sorted map) (key : κ) : Sorted (remove key map) :=
  h.of_sublist filter_sublist

/-- The first binding is the only one of its key. -/
theorem remove_head {rest : List (κ × ν)} (h : Sorted (p :: rest)) :
    remove p.1 (p :: rest) = rest := by
  obtain ⟨hfirst, -⟩ := pairwise_cons.mp h
  rw [SortedMap.remove, filter_cons_of_neg (by simp), filter_eq_self]
  intro q hq
  exact bne_iff_ne.mpr (ne_of_gt (hfirst q hq))

/-- The last binding is the only one of its key. -/
theorem remove_last {rest : List (κ × ν)} (h : Sorted (rest ++ [p])) :
    remove p.1 (rest ++ [p]) = rest := by
  obtain ⟨-, -, hlast⟩ := pairwise_append.mp h
  rw [SortedMap.remove, filter_append, filter_cons_of_neg (by simp), filter_nil,
    append_nil, filter_eq_self]
  intro q hq
  exact bne_iff_ne.mpr (ne_of_lt (hlast q hq p (mem_singleton.mpr rfl)))

/-- The number of smaller elements is the position in an increasing list. -/
theorem getElem?_rank {l : List κ} (h : l.Pairwise (· < ·)) {k : κ} (hk : k ∈ l) :
    l[(l.filter fun x => x < k).length]? = some k := by
  induction l with
  | nil => cases hk
  | cons x l ih =>
    obtain ⟨hfirst, hrest⟩ := pairwise_cons.mp h
    rcases mem_cons.mp hk with rfl | hmem
    · have hnone : (k :: l).filter (fun x => x < k) = [] := by
        rw [filter_eq_nil_iff]
        intro y hy
        rcases mem_cons.mp hy with rfl | hy
        · simp
        · simpa using le_of_lt (hfirst y hy)
      rw [hnone]
      rfl
    · rw [filter_cons_of_pos (by simpa using hfirst k hmem), length_cons]
      exact ih hrest hmem

theorem Sorted.insert (h : Sorted map) (key : κ) (value : ν) : Sorted (insert key value map) := by
  induction map with
  | nil => exact pairwise_singleton _ _
  | cons q rest ih =>
    obtain ⟨k, v⟩ := q
    obtain ⟨hfirst, hrest⟩ := pairwise_cons.mp h
    rw [SortedMap.insert]
    split
    · rename_i hlt
      refine pairwise_cons.mpr ⟨?_, h⟩
      intro p hp
      rcases mem_cons.mp hp with hp | hp
      · rw [hp]
        exact hlt
      · exact lt_trans hlt (hfirst p hp)
    · rename_i hle
      split
      · rename_i heq
        subst heq
        exact pairwise_cons.mpr ⟨hfirst, hrest⟩
      · rename_i hne
        refine pairwise_cons.mpr ⟨?_, ih hrest⟩
        intro p hp
        rcases mem_insert hp with hp | hp
        · rw [hp]
          exact lt_of_le_of_ne (not_lt.mp hle) (Ne.symm hne)
        · exact hfirst p hp

end SortedMap
