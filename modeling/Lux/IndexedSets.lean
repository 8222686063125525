import Mathlib.Data.Finset.Card
import Lux.KeyedList
import Lux.Runs

/-!
# Sets in insertion order

`SetData` holds its members in a vector, and in a map from each member to its place there.  A
removal moves the last member into the hole, so that the place of another member changes.
`Indexed` says that the map is exact; every operation keeps it and is then what it is called, on
the finite set of the members.
-/

namespace Lux.IndexedSets

open KeyedList List

/-- `SetData`. -/
structure SetData (M : Type) where
  members : List M
  index : List (M × Nat)

variable {M : Type}

/-- `Vec::swap_remove`: the last element takes the place of the one removed. -/
def swapRemove (members : List M) (i : Nat) : List M :=
  match members.getLast? with
  | none => []
  | some last => (members.set i last).dropLast

theorem swapRemove_mid (front mid : List M) (member last : M) :
    swapRemove (front ++ member :: (mid ++ [last])) front.length = front ++ last :: mid := by
  grind [swapRemove]

namespace SetData

variable [DecidableEq M] (set : SetData M) (member : M)

def contains : Bool := (set.index.lookup member).isSome

def len : Nat := set.members.length

/-- The set, and whether the member is new. -/
def insert : SetData M × Bool :=
  if set.contains member then (set, false)
  else (⟨set.members ++ [member], put set.index member set.members.length⟩, true)

/-- The set, and whether the member was there. -/
def remove : SetData M × Bool :=
  match set.index.lookup member with
  | none => (set, false)
  | some idx =>
    let members := swapRemove set.members idx
    let index := erase set.index member
    (⟨members, members[idx]?.elim index (put index · idx)⟩, true)

def pop : SetData M × Option M :=
  match set.members.getLast? with
  | none => (set, none)
  | some member => (⟨set.members.dropLast, erase set.index member⟩, some member)

/-- The loop of `spop_on_shard`. -/
def popLoop : Nat → SetData M → SetData M × List M
  | 0, set => (set, [])
  | count + 1, set =>
    match set.pop with
    | (set, none) => (set, [])
    | (set, some member) => (popLoop count set).map id (member :: ·)

/-- `spop_on_shard`, which leaves a single member to `spop_one_on_shard`. -/
def spop (count : Nat) : SetData M × List M :=
  if count = 1 then set.pop.map id Option.toList else popLoop count set

/-- The map leads from each member to its place, and nowhere else. -/
def Indexed : Prop := ∀ m i, set.index.lookup m = some i ↔ set.members[i]? = some m

/-- What an operation leaves, with an exact map, and what it answers. -/
def Leaves (result : SetData M × Bool) (s : Finset M) (answer : Prop) : Prop :=
  result.1.Indexed ∧ result.1.members.toFinset = s ∧ (result.2 = true ↔ answer)

variable {set member} (h : set.Indexed)
include h

theorem Indexed.nodup : set.members.Nodup := by
  rw [nodup_iff_getElem?_ne_getElem?]
  intro i j hij hj heq
  rw [getElem?_eq_getElem hj] at heq
  have hfirst := (h _ _).mpr heq
  have hsecond := (h _ _).mpr (getElem?_eq_getElem hj)
  grind

theorem Indexed.contains_iff : set.contains member = true ↔ member ∈ set.members := by
  rw [contains, Option.isSome_iff_exists, mem_iff_getElem?]
  exact exists_congr fun i => h member i

theorem Indexed.lookup_erase (m : M) (i : Nat) :
    (erase set.index member).lookup m = some i ↔ m ≠ member ∧ set.members[i]? = some m := by
  by_cases hm : m = member
  · simp [hm, lookup_erase_self]
  · simpa [hm, lookup_erase_of_ne] using h m i

theorem Indexed.insert : Leaves (set.insert member) (Insert.insert member set.members.toFinset)
    (member ∉ set.members) := by
  unfold SetData.insert
  split
  · next hold =>
    rw [h.contains_iff] at hold
    exact ⟨h, by simp [hold], by simp [hold]⟩
  next hnew =>
  rw [h.contains_iff] at hnew
  refine ⟨fun m i => ?_, by simp, by simp [hnew]⟩
  by_cases hm : m = member
  · rw [hm, lookup_put_self]
    grind
  · rw [lookup_put_of_ne _ _ hm, h]
    grind

theorem Indexed.remove : Leaves (set.remove member) (set.members.toFinset.erase member)
    (member ∈ set.members) := by
  have hnodup := h.nodup
  have hcontains := @Indexed.contains_iff M _ set member h
  have herase := @Indexed.lookup_erase M _ set member h
  obtain ⟨members, index⟩ := set
  unfold SetData.remove
  split
  · next hnone =>
    rw [contains, hnone] at hcontains
    have hnot : member ∉ members := fun hmem => Bool.false_ne_true (hcontains.mpr hmem)
    exact ⟨h, by simp [hnot], by simp [hnot]⟩
  next i hi =>
  obtain ⟨front, back, rfl, rfl⟩ : ∃ front back, members = front ++ member :: back ∧
      front.length = i := by
    obtain ⟨hlt, rfl⟩ := List.getElem?_eq_some_iff.mp ((h member i).mp hi)
    exact ⟨members.take i, members.drop (i + 1), by simp, by grind⟩
  -- What is behind the member decides whether another one moves.
  rcases eq_nil_or_concat' back with rfl | ⟨mid, last, rfl⟩
  · have hswap : swapRemove (front ++ [member]) front.length = front := by grind [swapRemove]
    have hnone : front[front.length]? = none := by simp
    simp only [hswap, hnone, Option.elim_none]
    refine ⟨fun m j => ?_, by ext; simp only [Finset.mem_erase, mem_toFinset]; grind, by simp⟩
    rw [herase]
    grind
  · have hsome : (front ++ last :: mid)[front.length]? = some last := by simp
    simp only [swapRemove_mid, hsome, Option.elim_some]
    refine ⟨fun m j => ?_, by ext; simp only [Finset.mem_erase, mem_toFinset]; grind, by simp⟩
    by_cases hm : m = last
    · rw [hm, lookup_put_self]
      grind
    · rw [lookup_put_of_ne _ _ hm, herase]
      grind

/-- Pops take members from the end. -/
theorem Indexed.popLoop (count : Nat) : (popLoop count set).1.Indexed ∧
    (popLoop count set).1.members ++ (popLoop count set).2.reverse = set.members ∧
      (popLoop count set).2.length = min count set.len := by
  induction count generalizing set with
  | zero => simpa [SetData.popLoop] using h
  | succ count ih =>
    have hnodup := h.nodup
    obtain ⟨members, index⟩ := set
    rcases eq_nil_or_concat' members with rfl | ⟨front, last, rfl⟩
    · simpa [SetData.popLoop, pop, len] using h
    · have hpop : SetData.Indexed ⟨front, erase index last⟩ := by
        intro m j
        rw [h.lookup_erase]
        grind
      obtain ⟨hindexed, hmembers, hlength⟩ := ih hpop
      have hloop : SetData.popLoop (count + 1) ⟨front ++ [last], index⟩ =
          (SetData.popLoop count ⟨front, erase index last⟩).map id (last :: ·) := by
        simp [SetData.popLoop, pop]
      rw [hloop]
      refine ⟨hindexed, ?_, ?_⟩
      · simp [← append_assoc, hmembers]
      · simp only [len, Prod.map_snd, length_cons, length_append, length_nil] at hlength ⊢
        omega

omit h in
theorem spop_eq (count : Nat) : set.spop count = SetData.popLoop count set := by
  unfold spop
  split
  · next hone =>
    rw [hone, SetData.popLoop]
    split <;> next hpop => simp [hpop, SetData.popLoop]
  · rfl

end SetData

/-! ### Runs -/

inductive Op (M : Type) where
  | insert (member : M)
  | remove (member : M)
  | spop (count : Nat)

def step [DecidableEq M] (set : SetData M) : Op M → SetData M
  | .insert member => (set.insert member).1
  | .remove member => (set.remove member).1
  | .spop count => (set.spop count).1

/-- The members that `SPOP` answers with. -/
def popped [DecidableEq M] (set : SetData M) : Op M → List M
  | .spop count => (set.spop count).2
  | _ => []

/-- The operations on a finite set, told which members a pop took. -/
def finsetStep [DecidableEq M] (s : Finset M) : Op M → List M → Finset M
  | .insert member, _ => insert member s
  | .remove member, _ => s.erase member
  | .spop _, taken => s \ taken.toFinset

/-- The set and a finite set beside it, which is only told what is popped. -/
def besideStep [DecidableEq M] (both : SetData M × Finset M) (op : Op M) :
    SetData M × Finset M :=
  (step both.1 op, finsetStep both.2 op (popped both.1 op))

/-- The map is exact, and the finite set is that of the members. -/
def Beside [DecidableEq M] (both : SetData M × Finset M) : Prop :=
  both.1.Indexed ∧ both.2 = both.1.members.toFinset

theorem beside_step [DecidableEq M] (both : SetData M × Finset M) (op : Op M) (h : Beside both) :
    Beside (besideStep both op) := by
  obtain ⟨set, s⟩ := both
  obtain ⟨h, hs : s = set.members.toFinset⟩ := h
  subst hs
  cases op with
  | insert member => exact ⟨h.insert.1, h.insert.2.1.symm⟩
  | remove member => exact ⟨h.remove.1, h.remove.2.1.symm⟩
  | spop count =>
    obtain ⟨hindexed, hmembers, -⟩ := h.popLoop count
    have hnodup := h.nodup
    simp only [Beside, besideStep, step, finsetStep, popped, SetData.spop_eq]
    refine ⟨hindexed, ?_⟩
    -- A member that is taken is not left as well, as no member is there twice.
    rw [← hmembers, nodup_append] at hnodup
    rw [← hmembers]
    ext m
    simp only [Finset.mem_sdiff, mem_toFinset, mem_append, mem_reverse]
    grind

theorem run_besideStep_fst [DecidableEq M] (both : SetData M × Finset M) (ops : List (Op M)) :
    (Runs.run besideStep both ops).1 = Runs.run step both.1 ops := by
  induction ops generalizing both with
  | nil => rfl
  | cons op ops ih => exact ih (besideStep both op)

/-- **The index stays exact.**  After any inserts, removals and pops no member is there twice, the
map has each of them at its place and nothing else, and membership, length and every operation are
those of the set of the members, which is what the same operations make of a finite set. -/
theorem set_index_exact [DecidableEq M] (ops : List (Op M)) :
    let set := Runs.run step ⟨[], []⟩ ops
    let s := set.members.toFinset
    Runs.run besideStep (⟨[], []⟩, ∅) ops = (set, s) ∧
      set.members.Nodup ∧ set.Indexed ∧ set.len = s.card ∧
      (∀ m, (set.contains m = true ↔ m ∈ s) ∧
        SetData.Leaves (set.insert m) (insert m s) (m ∉ s) ∧
        SetData.Leaves (set.remove m) (s.erase m) (m ∈ s)) ∧
      ∀ count, (set.spop count).1.Indexed ∧ (set.spop count).2.length = min count s.card ∧
        (set.spop count).1.members ++ (set.spop count).2.reverse = set.members := by
  have hstart : Beside (M := M) (⟨[], []⟩, ∅) := ⟨by simp [SetData.Indexed], rfl⟩
  obtain ⟨h, hs⟩ := Runs.keeps beside_step hstart ops
  have hfst := run_besideStep_fst (M := M) (⟨[], []⟩, ∅) ops
  generalize Runs.run step ⟨[], []⟩ ops = set at hfst
  rw [hfst] at h hs
  have hlen : set.len = set.members.toFinset.card := (toFinset_card_of_nodup h.nodup).symm
  refine ⟨Prod.ext hfst hs, h.nodup, h, hlen, fun m => ?_, fun count => ?_⟩
  · simp only [mem_toFinset]
    exact ⟨h.contains_iff, h.insert, h.remove⟩
  · obtain ⟨hindexed, hmembers, hlength⟩ := h.popLoop count
    rw [SetData.spop_eq, ← hlen]
    exact ⟨hindexed, hlength, hmembers⟩

end Lux.IndexedSets
