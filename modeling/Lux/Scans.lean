import Lux.CursorPages
import Lux.ColdTier
import Lux.ScoredSetQueries

/-!
# Iteration by cursors

`SCAN` lists the names of the keys in memory and then those of the cold tier, cuts a page out of the
listing and hides the internal names from the page. `ZSCAN` lists the members of a sorted set that
match and cuts a page out of these. The listing is built anew in every call, in the order of maps
that do not change.

Following the cursors yields everything once unless a count makes the end of a page leave the 64-bit
range, where the server stops. A key that is not UTF-8 is not yielded by `SCAN`: the text that
stands in for it is. Nor is a key yielded at the very instant of its deadline, at which every other
command still finds it.
-/

namespace Lux.Scans

open ByteCodec StdText CursorPages List

/-! ## The keyspace -/

/-- The keys in memory with their deadlines, shard by shard, and the shards of the cold tier. -/
structure Keyspace where
  shards : List (List (Bytes × Option Instant))
  disk : Option (List (List (Str × DiskEntry)))
  /-- A key is in one shard, and once. -/
  distinct : (shards.flatten.map Prod.fst).Nodup

/-- The test of `keys`. -/
def lives (now : Instant) (deadline : Option Instant) : Bool :=
  deadline.elim true fun exp => now < exp

/-- `is_expired_at`, the test of every other read. -/
def isExpiredAt (now : Instant) (deadline : Option Instant) : Bool :=
  deadline.any fun exp => now > exp

/-- The two tests differ at the deadline. -/
theorem isExpiredAt_eq_false_iff {now : Instant} {deadline : Option Instant} :
    isExpiredAt now deadline = false ↔ lives now deadline = true ∨ deadline = some now := by
  cases deadline with
  | none => simp [isExpiredAt, lives]
  | some exp => simp [isExpiredAt, lives, le_iff_lt_or_eq, eq_comm]

section Keys

variable (lossy : Bytes → Str) (pattern : Str → Bool) (now : Instant)

/-- The names that `keys` takes from memory. -/
def hotNames (shards : List (List (Bytes × Option Instant))) : List Str :=
  (shards.flatten.filter fun p => lives now p.2 && pattern (keyString lossy p.1)).map fun p =>
    keyString lossy p.1

/-- One name of the cold tier. -/
def addCold (result : List Str) (name : Str) : List Str :=
  if pattern name && !result.contains name then result ++ [name] else result

/-- `keys`. -/
def Keyspace.keys (store : Keyspace) : List Str :=
  match store.disk with
  | none => hotNames lossy pattern now store.shards
  | some shards =>
    (shards.flatten.map Prod.fst).foldl (addCold pattern)
      (hotNames lossy pattern now store.shards)

/-- `scan`. -/
def Keyspace.scan (store : Keyspace) (cursor count : Nat) : Option (Nat × List Str) :=
  page (store.keys lossy pattern now) cursor count

end Keys

section Spec

variable (lossy : Bytes → Str) (pattern : Str → Bool) (now : Instant) (store : Keyspace)

end Spec

section Listing

variable {lossy : Bytes → Str} {pattern : Str → Bool} {now : Instant} {store : Keyspace}

theorem keyString_utf8 (lossy : Bytes → Str) (name : Str) : keyString lossy (utf8 name) = name := by
  rw [keyString, fromUtf8?_utf8]

end Listing

/-! ## Following the cursors -/

/-- Following the cursors ends, whatever the calls are bounded by beyond one for each element, and
what it has yielded has the property. -/
def Yields {α : Type} (serve : Nat → Nat → Option (Nat × List α)) (counts : Nat → Count)
    (elements : Nat) (P : List α → Prop) : Prop :=
  ∃ out, (∀ fuel, elements < fuel → follow serve counts fuel 0 0 = some out) ∧ P out

section Sets

open ScoredSets

variable {S M : Type} [LinearOrder S] [LinearOrder M]

end Sets

/-! ## Where it fails -/

/-- Two keys in memory. -/
def twoKeys : Keyspace := ⟨[[(utf8 "a".toList, none), (utf8 "b".toList, none)]], none, by decide⟩

end Lux.Scans
