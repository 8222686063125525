import Mathlib.Data.Prod.Lex
import Mathlib.Order.SuccPred.Basic
import Mathlib.Order.WithBot
import Lux.SortedMap
import Lux.KeyedList
import Lux.Machine64
import Lux.Runs

/-!
# Sorted sets

A sorted set is held twice: as a tree of pairs of a score and a member, in that order, and as a map
from members to scores. Scores are the numbers of an arbitrary bounded order in which every number
has a next one, and one more value that is no number. The tree puts that value above all numbers,
while the comparisons of the machine do not order it at all.

A missing key is read as the empty set is, and a key that is written to starts as the empty set.
-/

namespace Lux.ScoredSets

open KeyedList Machine64

/-! ## Scores -/

/-- A number, or none (`⊤`), in the order of `OrderedFloat`. -/
abbrev Score (S : Type) := WithTop S

/-- What a score is computed with. -/
structure Arith (S : Type) where
  zero : S
  one : S
  add : Score S → Score S → Score S
  mul : Score S → Score S → Score S

section Comparisons

variable {S : Type} [LinearOrder S]

/-- `is_nan`. -/
def isNan (a : Score S) : Bool := a = ⊤

/-- `a < b` of the machine. -/
def flt (a b : Score S) : Bool := !isNan a && !isNan b && decide (a < b)

/-- `a <= b` of the machine. -/
def fle (a b : Score S) : Bool := !isNan a && !isNan b && decide (a ≤ b)

/-- `a == b` of the machine. -/
def feq (a b : Score S) : Bool := !isNan a && !isNan b && decide (a = b)

end Comparisons

/-! ## Sets -/

/-- A pair as the tree orders it: by the score, and by the member if the scores are the same. -/
abbrev Key (S M : Type) := Score S ×ₗ M

structure ZSet (S M : Type) where
  tree : List (Key S M × Unit)
  scores : List (M × Score S)
  deriving DecidableEq

variable {S M : Type}

def ZSet.empty : ZSet S M := ⟨[], []⟩

/-- The pairs in the order of the tree. -/
def ZSet.keys (z : ZSet S M) : List (Key S M) := z.tree.map Prod.fst

/-- A member and its score, as replies have them. -/
def item (k : Key S M) : M × Score S := ((ofLex k).2, (ofLex k).1)

variable [LinearOrder S] [LinearOrder M]

/-- `tree.insert`. -/
def ZSet.insertKey (z : ZSet S M) (member : M) (score : Score S) : List (Key S M × Unit) :=
  SortedMap.insert (toLex (score, member)) () z.tree

/-- `tree.remove`. -/
def ZSet.removeKey (z : ZSet S M) (member : M) (score : Score S) : List (Key S M × Unit) :=
  SortedMap.remove (toLex (score, member)) z.tree

/-! ## Writes -/

structure ZaddOptions where
  nx : Bool
  xx : Bool
  gt : Bool
  lt : Bool
  ch : Bool
  deriving DecidableEq

/-- The combinations that `cmd_zadd` refuses. -/
def ZaddOptions.clash (opts : ZaddOptions) : Option String :=
  if opts.nx && opts.xx then some "ERR XX and NX options at the same time are not compatible"
  else if (opts.nx && opts.gt) || (opts.nx && opts.lt) || (opts.gt && opts.lt) then
    some "ERR GT, LT, and NX options at the same time are not compatible"
  else none

def floatErr : String := "ERR value is not a valid float"

/-- What becomes of one member. -/
inductive Outcome where
  | added
  | changed
  | kept
  deriving DecidableEq

/-- A member is inserted that is not there. -/
def ZSet.add (z : ZSet S M) (member : M) (score : Score S) : ZSet S M :=
  ⟨z.insertKey member score, put z.scores member score⟩

/-- A member gets another score. -/
def ZSet.rescore (z : ZSet S M) (member : M) (previous score : Score S) : ZSet S M :=
  ⟨ZSet.insertKey ⟨z.removeKey member previous, z.scores⟩ member score, put z.scores member score⟩

/-- Whether a member that is there gets its new score. -/
def ZaddOptions.updates (opts : ZaddOptions) (previous score : Score S) : Bool :=
  if opts.gt && opts.lt then !feq score previous
  else if opts.gt then flt previous score
  else if opts.lt then flt score previous
  else true

/-- One member of `zadd_on_shard`. -/
def zaddMember (opts : ZaddOptions) (z : ZSet S M) (p : M × Score S) : ZSet S M × Outcome :=
  match z.scores.lookup p.1 with
  | some previous =>
    if opts.nx then (z, .kept)
    else if opts.updates previous p.2 && !feq p.2 previous then
      (z.rescore p.1 previous p.2, .changed)
    else (z, .kept)
  | none => if opts.xx then (z, .kept) else (z.add p.1 p.2, .added)

/-- The loop of `zadd_on_shard`. -/
def zaddAll (opts : ZaddOptions) : ZSet S M → List (M × Score S) → ZSet S M × List Outcome
  | z, [] => (z, [])
  | z, p :: rest =>
    let (z, outcome) := zaddMember opts z p
    let (z, outcomes) := zaddAll opts z rest
    (z, outcome :: outcomes)

/-- `zadd_on_shard`. -/
def zadd (opts : ZaddOptions) (z : ZSet S M) (members : List (M × Score S)) : ZSet S M × Nat :=
  let (z, outcomes) := zaddAll opts z members
  (z, if opts.ch then outcomes.count .added + outcomes.count .changed else outcomes.count .added)

/-- `cmd_zadd` behind its arguments. -/
def cmdZadd (opts : ZaddOptions) (z : ZSet S M) (members : List (M × Score S)) :
    Except String (ZSet S M × Nat) :=
  match opts.clash with
  | some message => .error message
  | none => if members.any fun p => isNan p.2 then .error floatErr else .ok (zadd opts z members)

/-- `zincrby_on_shard`. -/
def zincrby (arith : Arith S) (z : ZSet S M) (member : M) (increment : Score S) :
    ZSet S M × Score S :=
  let old := (z.scores.lookup member).getD arith.zero
  let score := arith.add old increment
  let tree := if !feq old arith.zero || (z.scores.lookup member).isSome
    then z.removeKey member old else z.tree
  (⟨ZSet.insertKey ⟨tree, z.scores⟩ member score, put z.scores member score⟩, score)

/-- `cmd_zincrby` behind its arguments. -/
def cmdZincrby (arith : Arith S) (z : ZSet S M) (member : M) (increment : Score S) :
    Except String (ZSet S M × Score S) :=
  if isNan increment then .error floatErr else .ok (zincrby arith z member increment)

/-- One member of `zrem`, with the number of members removed so far. -/
def zremMember (acc : ZSet S M × Nat) (member : M) : ZSet S M × Nat :=
  match acc.1.scores.lookup member with
  | some score => (⟨acc.1.removeKey member score, erase acc.1.scores member⟩, acc.2 + 1)
  | none => acc

/-- `zrem`. -/
def zrem (z : ZSet S M) (members : List M) : ZSet S M × Nat := members.foldl zremMember (z, 0)

/-- `zpopmin`: `pop_first`, as often as asked for. -/
def zpopmin (z : ZSet S M) : Nat → ZSet S M × List (M × Score S)
  | 0 => (z, [])
  | count + 1 =>
    match z.tree with
    | [] => (z, [])
    | (k, _) :: rest =>
      let (z, popped) := zpopmin ⟨rest, erase z.scores (item k).1⟩ count
      (z, item k :: popped)

/-- `zpopmax`: `pop_last`, as often as asked for. -/
def zpopmax (z : ZSet S M) : Nat → ZSet S M × List (M × Score S)
  | 0 => (z, [])
  | count + 1 =>
    match z.tree.getLast? with
    | none => (z, [])
    | some (k, _) =>
      let (z, popped) := zpopmax ⟨z.tree.dropLast, erase z.scores (item k).1⟩ count
      (z, item k :: popped)

/-- The set that `write_computed_zset` stores. -/
def computed (entries : List (M × Score S)) : ZSet S M :=
  entries.foldl (fun z p => z.add p.1 p.2) .empty

/-! ## Reads -/

/-- A list in the order of the tree or in the reverse one. -/
def directed {α : Type} (reverse : Bool) (l : List α) : List α := if reverse then l.reverse else l

/-- `preview_zpop`. -/
def previewZpop (z : ZSet S M) (count : Nat) (min : Bool) : List (M × Score S) :=
  ((directed (!min) z.keys).take count).map item

/-- `zrank`. -/
def zrank (z : ZSet S M) (member : M) (reverse : Bool) : Option (Option Nat) :=
  match z.scores.lookup member with
  | none => some none
  | some score =>
    (SortedMap.rangeBetween .unbounded (.excluded (toLex (score, member))) z.tree).map fun below =>
      some (if reverse then z.tree.length - 1 - below.length else below.length)

/-- `zrange`. -/
def zrange (z : ZSet S M) (start stop : Int64) (reverse : Bool) : List (M × Score S) :=
  let len : Int := z.tree.length
  let first := if start.toInt < 0 then asUsize (max (wrap (len + start.toInt)) 0)
    else asUsize (min start.toInt len)
  let last := if stop.toInt < 0 then asUsize (max (wrap (wrap (len + stop.toInt) + 1)) 0)
    else asUsize (min (wrap (stop.toInt + 1)) len)
  if last ≤ first then []
  else (((directed reverse z.keys).drop first).take (last - first)).map item

section Bounds

variable [BoundedOrder S] [SuccOrder S] [OrderBot M]

/-- `next_up`. -/
def nextUp (a : Score S) : Score S := a.map Order.succ

/-- `score_upper_bound`. -/
def scoreUpperBound (score : Score S) (exclusive : Bool) : SortedMap.Bound (Key S M) :=
  if exclusive then .excluded (toLex (score, ⊥))
  else if feq score ((⊤ : S) : Score S) then .excluded (toLex (⊤, ⊥))
  else .excluded (toLex (nextUp score, ⊥))

/-- An interval of scores. -/
structure Interval (S : Type) where
  min : Score S
  max : Score S
  minExclusive : Bool
  maxExclusive : Bool

/-- The closure that `zrangebyscore` filters with. -/
def Interval.passes (i : Interval S) (score : Score S) : Bool :=
  (if i.minExclusive then flt i.min score else fle i.min score) &&
    (if i.maxExclusive then flt score i.max else fle score i.max)

/-- The bounds are out of order. -/
def Interval.isEmpty (i : Interval S) : Bool :=
  flt i.max i.min || (feq i.min i.max && (i.minExclusive || i.maxExclusive))

def notFloatErr : String := "ERR min or max is not a float"

/-- `zrangebyscore`; `none` is a range that the tree refuses. -/
def zrangebyscore (z : ZSet S M) (i : Interval S) (reverse : Bool) (offset count : Option Nat) :
    Option (Except String (List (M × Score S))) :=
  if isNan i.min || isNan i.max then some (.error notFloatErr)
  else if i.isEmpty then some (.ok [])
  else
    (SortedMap.rangeBetween (.included (toLex (i.min, ⊥))) (scoreUpperBound i.max false)
      z.tree).map fun range =>
        let kept := (directed reverse (range.map Prod.fst)).filter fun k => i.passes (ofLex k).1
        let kept := kept.drop (offset.getD 0)
        .ok ((count.elim kept kept.take).map item)

/-- `zcount`. -/
def zcount (z : ZSet S M) (i : Interval S) : Option (Except String Nat) :=
  if isNan i.min || isNan i.max then some (.error notFloatErr)
  else if flt i.max i.min then some (.ok 0)
  else if feq i.min i.max && (i.minExclusive || i.maxExclusive) then some (.ok 0)
  else if feq i.min ((⊥ : S) : Score S) && feq i.max ((⊤ : S) : Score S) && !i.minExclusive &&
      !i.maxExclusive then
    some (.ok z.scores.length)
  else
    (SortedMap.rangeBetween
      (.included (toLex (if i.minExclusive then nextUp i.min else i.min, ⊥)))
      (scoreUpperBound i.max i.maxExclusive) z.tree).map fun range => .ok range.length

/-- `ZCOUNT` in `execute_on_shard_read`, by which a single command is served while no encryption key
is active: the scores are compared one by one. -/
def zcountOnShard (z : ZSet S M) (i : Interval S) : Except String Nat :=
  if isNan i.min || isNan i.max then .error notFloatErr
  else .ok (z.scores.countP fun p => i.passes p.2)

/-- `zvisit_scores_inclusive`: what is visited, in that order. -/
def zvisitScoresInclusive (z : ZSet S M) (min max : Score S) :
    Option (Except String (List (M × Score S))) :=
  if isNan min || isNan max then some (.error notFloatErr)
  else if flt max min then some (.ok [])
  else
    (SortedMap.rangeBetween (.included (toLex (min, ⊥))) (scoreUpperBound max false) z.tree).map
      fun range => .ok (range.map fun p => item p.1)

end Bounds

/-! ## Sequences of commands -/

/-- A command that changes a sorted set. `ZREMRANGEBY…` and `ZMPOP` remove and pop as the others
do, and the commands that store a result replace the set by some map of members to scores. -/
inductive Command (S M : Type) where
  | zadd (opts : ZaddOptions) (members : List (M × Score S))
  | zincrby (member : M) (increment : Score S)
  | zrem (members : List M)
  | zpopmin (count : Nat)
  | zpopmax (count : Nat)
  | store (entries : List (M × Score S)) (distinct : (entries.map Prod.fst).Nodup)
  | del

/-- The set after a command that may be refused. -/
def afterwards {α : Type} (z : ZSet S M) (result : Except String (ZSet S M × α)) : ZSet S M :=
  match result with
  | .ok (z', _) => z'
  | .error _ => z

def step (arith : Arith S) (z : ZSet S M) : Command S M → ZSet S M
  | .zadd opts members => afterwards z (cmdZadd opts z members)
  | .zincrby member increment => afterwards z (cmdZincrby arith z member increment)
  | .zrem members => (zrem z members).1
  | .zpopmin count => (zpopmin z count).1
  | .zpopmax count => (zpopmax z count).1
  | .store entries _ => computed entries
  | .del => .empty

/-- A sorted set that commands lead to. Its members can be counted in 63 bits, as no address
space holds more. -/
structure Reached (arith : Arith S) (M : Type) [LinearOrder M] where
  commands : List (Command S M)
  fits : (Runs.run (step arith) ZSet.empty commands).tree.length < 2 ^ 63

def Reached.zset {arith : Arith S} (set : Reached arith M) : ZSet S M :=
  Runs.run (step arith) .empty set.commands

end Lux.ScoredSets
