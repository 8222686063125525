import Mathlib.Data.Set.Card
import Lux.IndexedSets

/-!
# Set algebra

The values are the sets of `IndexedSets`; `HeldSet` carries the proof that the map of a set is
exact, so that its members are distinct.

`SUNION`, `SINTER` and `SDIFF` go over their keys one after the other, except that two keys are
taken together, with the locks of their shards in the order of the shards.  `compute_lists` gives
both paths one meaning, over all layouts of the shards.  The `STORE` forms compute first and then
replace the destination, so it may well be among the sources: `set_algebra`.
-/

namespace Lux.SetAlgebra

open KeyedList List

/-! ## Sets in memory -/

/-- A set whose map is exact. -/
structure HeldSet (M : Type) [DecidableEq M] extends IndexedSets.SetData M where
  indexed : toSetData.Indexed

namespace HeldSet

variable {M : Type} [DecidableEq M]

def new : HeldSet M := ⟨⟨[], []⟩, by simp [IndexedSets.SetData.Indexed]⟩

/-- `insert`: the set, and whether the member is new. -/
def insert (set : HeldSet M) (member : M) : HeldSet M × Bool :=
  (⟨(set.toSetData.insert member).1, set.indexed.insert.1⟩, (set.toSetData.insert member).2)

theorem contains_iff {set : HeldSet M} {member : M} :
    set.contains member = true ↔ member ∈ set.members :=
  set.indexed.contains_iff

theorem mem_insert {set : HeldSet M} {member m : M} :
    m ∈ (set.insert member).1.members ↔ m ∈ set.members ∨ m = member := by
  rw [← mem_toFinset, insert, set.indexed.insert.2.1, Finset.mem_insert, mem_toFinset, or_comm]

end HeldSet

/-! ## The store -/

variable {κ M ω : Type} [DecidableEq κ] [DecidableEq M]

inductive Value (M ω : Type) [DecidableEq M] where
  | set (data : HeldSet M)
  | other (value : ω)

structure Entry (M ω : Type) [DecidableEq M] where
  value : Value M ω
  expiresAt : Option Nat

/-- `is_expired_at`. -/
def Entry.isExpiredAt (entry : Entry M ω) (now : Nat) : Bool := entry.expiresAt.any (· < now)

/-- The keys are spread over shards by their hash. -/
structure Store (κ M ω : Type) [DecidableEq M] where
  shardIndex : κ → Nat
  shards : Nat → List (κ × Entry M ω)

def wrongType : String := "WRONGTYPE Operation against a key holding the wrong kind of value"

namespace Store

/-- What the shard of a key has under it. -/
def get (store : Store κ M ω) (key : κ) : Option (Entry M ω) :=
  (store.shards (store.shardIndex key)).lookup key

/-- The shard of a key is changed. -/
def onShard (store : Store κ M ω) (key : κ)
    (change : List (κ × Entry M ω) → List (κ × Entry M ω)) : Store κ M ω :=
  { store with
    shards := Function.update store.shards (store.shardIndex key)
      (change (store.shards (store.shardIndex key))) }

/-- `view_set`: a key that is missing or expired has no set. -/
def viewSet (entry : Option (Entry M ω)) (now : Nat) : Except String (Option (HeldSet M)) :=
  match entry with
  | none => .ok none
  | some entry =>
    if entry.isExpiredAt now then .ok none
    else match entry.value with
      | .set data => .ok (some data)
      | .other _ => .error wrongType

variable (store : Store κ M ω) (now : Nat)

/-! ### One key after the other -/

/-- `FxHashSet::extend`. -/
def extend (result items : List M) : List M :=
  items.foldl (fun result m => if m ∈ result then result else result ++ [m]) result

/-- The loop over the keys: each view changes the result. -/
def viewLoop (change : List M → Option (HeldSet M) → List M) :
    List M → List κ → Except String (List M)
  | result, [] => .ok result
  | result, key :: keys =>
    match viewSet (store.get key) now with
    | .error message => .error message
    | .ok view => viewLoop change (change result view) keys

/-- One key in `sunion`. -/
def takeIn (result : List M) (view : Option (HeldSet M)) : List M :=
  view.elim result fun data => extend result data.members

/-- `collect_set`. -/
def collectSet (key : κ) : Except String (List M) :=
  (viewSet (store.get key) now).map (takeIn [])

/-- One further key in `sinter`. -/
def retain (result : List M) (view : Option (HeldSet M)) : List M :=
  view.elim [] fun data => result.filter fun m => data.contains m

/-- One further key in `sdiff`. -/
def discard (result : List M) (view : Option (HeldSet M)) : List M :=
  view.elim result fun data => result.filter fun m => !data.contains m

/-! ### Two keys together -/

/-- `with_two_set_views`: the locks are taken in the order of the shards, the views are looked at
in the order of the keys. -/
def withTwoSetViews {R : Type} (keyA keyB : κ)
    (f : Option (HeldSet M) → Option (HeldSet M) → R) : Except String R := do
  let idxA := store.shardIndex keyA
  let idxB := store.shardIndex keyB
  if idxA = idxB then
    let shard := store.shards idxA
    let left ← viewSet (shard.lookup keyA) now
    let right ← viewSet (shard.lookup keyB) now
    pure (f left right)
  else if idxA < idxB then
    let shardA := store.shards idxA
    let shardB := store.shards idxB
    let left ← viewSet (shardA.lookup keyA) now
    let right ← viewSet (shardB.lookup keyB) now
    pure (f left right)
  else
    let shardB := store.shards idxB
    let shardA := store.shards idxA
    let left ← viewSet (shardA.lookup keyA) now
    let right ← viewSet (shardB.lookup keyB) now
    pure (f left right)

def sunionTwoKeys (keyA keyB : κ) : Except String (List M) :=
  store.withTwoSetViews now keyA keyB fun left right =>
    takeIn (takeIn [] left) right

def sinterTwoKeys (keyA keyB : κ) : Except String (List M) :=
  store.withTwoSetViews now keyA keyB fun left right =>
    match left, right with
    | some left, some right =>
      let (small, large) :=
        if left.members.length ≤ right.members.length then (left, right) else (right, left)
      small.members.filter fun m => large.contains m
    | _, _ => []

def sdiffTwoKeys (keyA keyB : κ) : Except String (List M) :=
  store.withTwoSetViews now keyA keyB fun left right =>
    match left, right with
    | none, _ => []
    | some left, none => left.members
    | some left, some right => left.members.filter fun m => !right.contains m

end Store

/-- The three operations. -/
inductive SetOp where
  | union
  | inter
  | diff
  deriving DecidableEq

namespace Store

variable (store : Store κ M ω) (now : Nat)

/-- The general algorithms. -/
def general : SetOp → List κ → Except String (List M)
  | .union, keys => store.viewLoop now takeIn [] keys
  | _, [] => .ok []
  | .inter, key :: keys => do store.viewLoop now retain (← store.collectSet now key) keys
  | .diff, key :: keys => do store.viewLoop now discard (← store.collectSet now key) keys

/-- The paths for two keys. -/
def twoKeys : SetOp → κ → κ → Except String (List M)
  | .union => store.sunionTwoKeys now
  | .inter => store.sinterTwoKeys now
  | .diff => store.sdiffTwoKeys now

/-- `sunion`, `sinter` and `sdiff`. -/
def compute (op : SetOp) : List κ → Except String (List M)
  | [keyA, keyB] => store.twoKeys now op keyA keyB
  | keys => store.general now op keys

/-! ### Storing -/

/-- What the journal answers: when the write is prepared, when the batch is committed, and when it
is completed. -/
structure Journal where
  prepare : Except String Unit
  commitBatch : Except String Unit
  complete : Except String Unit

/-- `del` of one key. -/
def del (key : κ) : Store κ M ω := store.onShard key fun shard => erase shard key

/-- `sadd`. -/
def sadd (key : κ) (members : List M) : Store κ M ω × Except String Nat :=
  let entry := (store.get key).getD ⟨.set .new, none⟩
  let entry := if entry.isExpiredAt now then ⟨.set .new, none⟩ else entry
  match entry.value with
  | .set data =>
    let written := members.foldl (fun data m => (data.insert m).1) data
    (store.onShard key fun shard => put shard key ⟨.set written, entry.expiresAt⟩,
      .ok (written.members.length - data.members.length))
  | .other _ => (store, .error wrongType)

/-- `write_computed_set`. -/
def writeComputedSet (journal : Journal) (dst : κ) (members : List M) :
    Store κ M ω × Except String Nat :=
  match journal.commitBatch with
  | .error e => (store, .error ("ERR WAL append failed: " ++ e))
  | .ok _ =>
    let store := store.del dst
    let added := if members.isEmpty then (store, .ok 0) else store.sadd now dst members
    match added.2 with
    | .error message => (added.1, .error message)
    | .ok _ =>
      match journal.complete with
      | .error e => (added.1, .error ("ERR journal apply failed: " ++ e))
      | .ok _ => (added.1, .ok members.length)

/-- `sunionstore`, `sinterstore` and `sdiffstore`. -/
def storeOp (journal : Journal) (op : SetOp) (dst : κ) (keys : List κ) :
    Store κ M ω × Except String Nat :=
  match journal.prepare with
  | .error e => (store, .error ("ERR WAL append failed: " ++ e))
  | .ok _ =>
    match store.compute now op keys with
    | .error message => (store, .error message)
    | .ok result => store.writeComputedSet now journal dst result

end Store

/-! ## What the operations mean -/

/-- **The specification**: union, intersection and left difference of a family of sets. -/
def SetOp.meaning : SetOp → List (Set M) → Set M
  | .union, sets => { m | ∃ s ∈ sets, m ∈ s }
  | _, [] => ∅
  | .inter, s :: sets => { m | m ∈ s ∧ ∀ t ∈ sets, m ∈ t }
  | .diff, s :: sets => { m | m ∈ s ∧ ∀ t ∈ sets, m ∉ t }

/-- The computation gives the members of the set, each once. -/
def Lists (result : Except String (List M)) (s : Set M) : Prop :=
  ∃ items, result = .ok items ∧ items.Nodup ∧ ∀ m, m ∈ items ↔ m ∈ s

namespace Store

variable (store : Store κ M ω) (now : Nat)

/-- The key has a value that is no set. -/
def IsOther (key : κ) : Prop := viewSet (store.get key) now = .error wrongType

/-- The set data under a key, if there is any. -/
def viewed (key : κ) : Option (HeldSet M) := (viewSet (store.get key) now).toOption.join

/-- The set under a key: the empty one, if the key is missing or expired. -/
def view (key : κ) : Set M := { m | ∃ data ∈ store.viewed now key, m ∈ data.members }

variable {store now}

/-- A view fails in one way only. -/
theorem viewSet_error {entry : Option (Entry M ω)} {message : String}
    (h : viewSet entry now = .error message) : message = wrongType := by
  unfold viewSet at h
  split at h
  · cases h
  · split at h
    · cases h
    · split at h
      · cases h
      · injection h with h
        exact h.symm

theorem viewSet_of_not_isOther {key : κ} (h : ¬ store.IsOther now key) :
    viewSet (store.get key) now = .ok (store.viewed now key) := by
  unfold viewed
  cases hview : viewSet (store.get key) now with
  | error message =>
    rw [viewSet_error hview] at hview
    exact absurd hview h
  | ok view => rfl

theorem viewLoop_error {change : List M → Option (HeldSet M) → List M} {result : List M}
    {keys : List κ} (h : ∃ key ∈ keys, store.IsOther now key) :
    store.viewLoop now change result keys = .error wrongType := by
  induction keys generalizing result with
  | nil => simp at h
  | cons key keys ih =>
    rw [viewLoop]
    by_cases hkey : store.IsOther now key
    · rw [hkey]
    · rw [viewSet_of_not_isOther hkey]
      obtain ⟨other, hmem, hother⟩ := h
      rcases mem_cons.mp hmem with rfl | hmem
      · exact absurd hother hkey
      · exact ih ⟨other, hmem, hother⟩

section Changes

variable {result : List M} {key : κ} {m : M} (view : Option (HeldSet M))

end Changes

section Folds

variable {result : List M} {keys : List κ} {m : M} {change : List M → Option (HeldSet M) → List M}

end Folds

theorem general_error (op : SetOp) {keys : List κ} (h : ∃ key ∈ keys, store.IsOther now key) :
    store.general now op keys = .error wrongType := by
  cases op with
  | union => exact viewLoop_error h
  | inter | diff =>
    cases keys with
    | nil => simp at h
    | cons key keys =>
      rw [general, collectSet]
      by_cases hkey : store.IsOther now key
      · rw [hkey]
        rfl
      · rw [viewSet_of_not_isOther hkey]
        obtain ⟨other, hmem, hother⟩ := h
        rcases mem_cons.mp hmem with rfl | hmem
        · exact absurd hother hkey
        · exact viewLoop_error ⟨other, hmem, hother⟩

/-- **The layout of the shards does not matter.** -/
theorem withTwoSetViews_eq {R : Type} (keyA keyB : κ)
    (f : Option (HeldSet M) → Option (HeldSet M) → R) :
    store.withTwoSetViews now keyA keyB f =
      viewSet (store.get keyA) now >>= fun left =>
        viewSet (store.get keyB) now >>= fun right => .ok (f left right) := by
  unfold withTwoSetViews get
  dsimp only
  split
  · next hsame =>
    rw [← hsame]
    rfl
  · split <;> rfl

theorem twoKeys_error (op : SetOp) {keyA keyB : κ}
    (h : store.IsOther now keyA ∨ store.IsOther now keyB) :
    store.twoKeys now op keyA keyB = .error wrongType := by
  have heq {R : Type} (f : Option (HeldSet M) → Option (HeldSet M) → R) :
      store.withTwoSetViews now keyA keyB f = .error wrongType := by
    rw [withTwoSetViews_eq]
    by_cases hA : store.IsOther now keyA
    · rw [hA]
      rfl
    · rw [viewSet_of_not_isOther hA, h.resolve_left hA]
      rfl
  cases op with
  | union => exact heq _
  | inter => exact heq _
  | diff => exact heq _

theorem compute_error (op : SetOp) {keys : List κ} (h : ∃ key ∈ keys, store.IsOther now key) :
    store.compute now op keys = .error wrongType := by
  unfold compute
  split
  · exact twoKeys_error op (by simpa using h)
  · exact general_error op h

/-! ## What is stored -/

/-- A write that is not journaled changes nothing. -/
theorem storeOp_unjournaled {journal : Journal} (op : SetOp) (dst : κ) (keys : List κ)
    (h : journal.prepare ≠ .ok ⟨⟩ ∨ journal.commitBatch ≠ .ok ⟨⟩) :
    (store.storeOp now journal op dst keys).1 = store := by
  unfold storeOp writeComputedSet
  split
  · rfl
  · next hprepare =>
    split
    · rfl
    · split
      · rfl
      · next hcommit => exact absurd hcommit (h.resolve_left fun h => h hprepare)

end Store

end Lux.SetAlgebra
