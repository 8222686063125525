import Lux.ScoredSetQueries
import Lux.StdText

/-!
# Storing sorted sets

`ZADD` and `ZINCRBY` change the set of one key and are journaled as they are. The commands that
store a union, an intersection, a difference or a range compute a map of members to scores first,
replace the destination by it, and journal the replacement: a `DEL`, and a `ZADD` that spells the
scores out. Replaying a record runs it through the ordinary commands, which refuse what they would
refuse from a client.
-/

namespace Lux.ScoredSets

open KeyedList StdText

variable {κ S M : Type} [LinearOrder S] [LinearOrder M]

/-! ## Computed sets -/

inductive Aggregate where
  | sum
  | min
  | max
  deriving DecidableEq

/-- `f64::min`: the other operand, if one is no number. -/
def fmin (a b : Score S) : Score S := if isNan a then b else if isNan b then a else min a b

/-- `f64::max`. -/
def fmax (a b : Score S) : Score S := if isNan a then b else if isNan b then a else max a b

/-- How two scores of a member become one. -/
def Aggregate.combine (arith : Arith S) : Aggregate → Score S → Score S → Score S
  | .sum => arith.add
  | .min => fmin
  | .max => fmax

/-- A source with its weight. -/
abbrev Source (S M : Type) := List (M × Score S) × Score S

/-- The sources with the weights given for them. -/
def withWeights (arith : Arith S) (weights : List (Score S)) (sets : List (List (M × Score S))) :
    List (Source S M) :=
  sets.zipIdx.map fun p => (p.1, weights.getD p.2 arith.one)

/-- One member in `zunion_compute`. -/
def unionMember (arith : Arith S) (aggregate : Aggregate) (weight : Score S)
    (result : List (M × Score S)) (p : M × Score S) : List (M × Score S) :=
  let weighted := arith.mul p.2 weight
  match result.lookup p.1 with
  | some current => put result p.1 (aggregate.combine arith current weighted)
  | none => put result p.1 weighted

/-- `zunion_compute`. -/
def zunionCompute (arith : Arith S) (aggregate : Aggregate) (sources : List (Source S M)) :
    List (M × Score S) :=
  sources.foldl
    (fun result source => source.1.foldl (unionMember arith aggregate source.2) result) []

/-- One further source in `zinter_compute`. -/
def interSource (arith : Arith S) (aggregate : Aggregate) (result : List (M × Score S))
    (source : Source S M) : List (M × Score S) :=
  result.filterMap fun p => (source.1.lookup p.1).map fun score =>
    (p.1, aggregate.combine arith p.2 (arith.mul score source.2))

/-- `zinter_compute`. -/
def zinterCompute (arith : Arith S) (aggregate : Aggregate) :
    List (Source S M) → List (M × Score S)
  | [] => []
  | first :: rest =>
    rest.foldl (interSource arith aggregate)
      (first.1.map fun p => (p.1, arith.mul p.2 first.2))

/-- `zdiff_compute`. -/
def zdiffCompute : List (List (M × Score S)) → List (M × Score S)
  | [] => []
  | first :: rest =>
    rest.foldl (fun result set => result.filter fun p => (set.lookup p.1).isNone) first

/-! ## Keys -/

/-- What a key holds. -/
inductive Held (S M : Type) where
  | zset (z : ZSet S M)
  | other

/-- The keys that are alive. -/
abbrev Sets (κ S M : Type) := κ → Option (Held S M)

def wrongType : String := "WRONGTYPE Operation against a key holding the wrong kind of value"

/-- `collect_sorted_set`. -/
def collectSortedSet (state : Sets κ S M) (key : κ) : Except String (List (M × Score S)) :=
  match state key with
  | none => .ok []
  | some (.zset z) => .ok z.scores
  | some .other => .error wrongType

variable [DecidableEq κ]

def Sets.set (state : Sets κ S M) (key : κ) (z : ZSet S M) : Sets κ S M :=
  Function.update state key (some (.zset z))

def Sets.del (state : Sets κ S M) (key : κ) : Sets κ S M := Function.update state key none

/-- `cmd_zadd` on the key. -/
def storeZadd (opts : ZaddOptions) (state : Sets κ S M) (key : κ) (members : List (M × Score S)) :
    Except String (Sets κ S M) :=
  match opts.clash with
  | some message => .error message
  | none =>
    if members.any fun p => isNan p.2 then .error floatErr
    else
      match state key with
      | none =>
        if opts.xx then .ok state else .ok (state.set key (zadd opts .empty members).1)
      | some (.zset z) => .ok (state.set key (zadd opts z members).1)
      | some .other => .error wrongType

/-- `cmd_zincrby` on the key. -/
def storeZincrby (arith : Arith S) (state : Sets κ S M) (key : κ) (member : M)
    (increment : Score S) : Except String (Sets κ S M) :=
  if isNan increment then .error floatErr
  else
    match state key with
    | none => .ok (state.set key (zincrby arith .empty member increment).1)
    | some (.zset z) => .ok (state.set key (zincrby arith z member increment).1)
    | some .other => .error wrongType

/-! ## The journal -/

/-- A record of the journal. -/
inductive Record (κ S M : Type) where
  | del (key : κ)
  | zadd (opts : ZaddOptions) (key : κ) (members : List (M × Score S))
  /-- A `ZADD` without options that spells its scores out. -/
  | zaddText (key : κ) (pairs : List (Str × M))
  | zincrby (key : κ) (member : M) (increment : Score S)

/-- How scores are computed, and printed and parsed by the standard library: what was printed is
parsed back. -/
structure Env (S : Type) where
  arith : Arith S
  print : Score S → Str
  parse : Str → Option (Score S)
  parse_print : ∀ score, parse (print score) = some score

def noOptions : ZaddOptions := ⟨false, false, false, false, false⟩

/-- One pair of a `ZADD`. -/
def parsePair (env : Env S) (p : Str × M) : Except String (M × Score S) :=
  match env.parse p.1 with
  | some score => .ok (p.2, score)
  | none => .error floatErr

def replayRecord (env : Env S) (state : Sets κ S M) : Record κ S M → Except String (Sets κ S M)
  | .del key => .ok (state.del key)
  | .zadd opts key members => storeZadd opts state key members
  | .zaddText key pairs => do
      let members ← pairs.mapM (parsePair env)
      storeZadd noOptions state key members
  | .zincrby key member increment => storeZincrby env.arith state key member increment

def replay (env : Env S) (state : Sets κ S M) (records : List (Record κ S M)) :
    Except String (Sets κ S M) :=
  records.foldlM (replayRecord env) state

/-! ## Commands -/

/-- `write_computed_zset`. -/
def writeComputedZset (env : Env S) (state : Sets κ S M) (dst : κ) (entries : List (M × Score S)) :
    Sets κ S M × List (Record κ S M) :=
  if entries = [] then (state.del dst, [.del dst])
  else
    (state.set dst (computed entries),
      [.del dst, .zaddText dst (entries.map fun p => (env.print p.2, p.1))])

/-- What `ZRANGESTORE` selects. -/
inductive Selection (S M : Type) where
  | byScore (interval : Interval S) (reverse : Bool) (offset count : Option Nat)
  | byLex (inside : M → Bool) (reverse : Bool) (offset count : Option Nat)
  | byRank (start stop : Int64) (reverse : Bool)

/-- `zrangebylex`, with the scores looked up afterwards. -/
def lexPairs (arith : Arith S) (z : ZSet S M) (inside : M → Bool) (reverse : Bool)
    (offset count : Option Nat) : List (M × Score S) :=
  (window offset count (((directed reverse z.keys).map fun k => (item k).1).filter inside)).map
    fun member => (member, (z.scores.lookup member).getD arith.zero)

/-- The pairs that `cmd_zrangestore` stores. -/
def Selection.pairs [BoundedOrder S] [SuccOrder S] [OrderBot M] (arith : Arith S) (z : ZSet S M) :
    Selection S M → Option (Except String (List (M × Score S)))
  | .byScore interval reverse offset count => zrangebyscore z interval reverse offset count
  | .byLex inside reverse offset count => some (.ok (lexPairs arith z inside reverse offset count))
  | .byRank start stop reverse => some (.ok (zrange z start stop reverse))

inductive KeyCommand (κ S M : Type) where
  | zadd (opts : ZaddOptions) (key : κ) (members : List (M × Score S))
  | zincrby (key : κ) (member : M) (increment : Score S)
  | zunionstore (dst : κ) (keys : List κ) (weights : List (Score S)) (aggregate : Aggregate)
  | zinterstore (dst : κ) (keys : List κ) (weights : List (Score S)) (aggregate : Aggregate)
  | zdiffstore (dst : κ) (keys : List κ)
  | zrangestore (dst src : κ) (selection : Selection S M)

def numkeysErr : String :=
  "ERR at least 1 input key is needed for ZUNIONSTORE/ZINTERSTORE/ZDIFFSTORE"

def weightErr : String := "ERR weight value is not a float"

/-- `is_finite`. -/
def isFinite [BoundedOrder S] (a : Score S) : Bool :=
  !isNan a && !feq a ((⊥ : S) : Score S) && !feq a ((⊤ : S) : Score S)

/-- The checks of `parse_zstore_numkeys` and `parse_zstore_options`. `WEIGHTS` may be repeated: each
takes a weight for every key, and those behind the first are parsed and not used. -/
def checkSources [BoundedOrder S] (keys : List κ) (weights : List (Score S)) :
    Except String Unit :=
  if keys = [] then .error numkeysErr
  else
    let parsed := weights.take (weights.length / keys.length * keys.length)
    if parsed.any fun w => !isFinite w then .error weightErr
    else if weights.length % keys.length ≠ 0 then .error "ERR syntax error"
    else .ok ()

section Execute

variable [BoundedOrder S] [SuccOrder S] [OrderBot M]

/-- A command that stores what it computes from its sources. -/
def storeComputed (env : Env S) (state : Sets κ S M) (dst : κ) (keys : List κ)
    (weights : List (Score S)) (compute : List (List (M × Score S)) → List (M × Score S)) :
    Except String (Sets κ S M × List (Record κ S M)) := do
  checkSources keys weights
  let sets ← keys.mapM (collectSortedSet state)
  pure (writeComputedZset env state dst (compute sets))

/-- `cmd_zrangestore` behind its arguments. -/
def storeSelection (env : Env S) (state : Sets κ S M) (dst src : κ) (selection : Selection S M) :
    Option (Except String (Sets κ S M × List (Record κ S M))) :=
  match state src with
  | some .other => some (.error wrongType)
  | some (.zset z) =>
    (selection.pairs env.arith z).map fun reply =>
      reply.map fun pairs => writeComputedZset env state dst (ofPairs pairs)
  | none =>
    (selection.pairs env.arith .empty).map fun reply =>
      reply.map fun pairs => writeComputedZset env state dst (ofPairs pairs)

/-- The command, with the records it journals; `none` would be a stop of the server. -/
def execute (env : Env S) (state : Sets κ S M) : KeyCommand κ S M →
    Option (Except String (Sets κ S M × List (Record κ S M)))
  | .zadd opts key members =>
    some ((storeZadd opts state key members).map fun state' =>
      (state', [.zadd opts key members]))
  | .zincrby key member increment =>
    some ((storeZincrby env.arith state key member increment).map fun state' =>
      (state', [.zincrby key member increment]))
  | .zunionstore dst keys weights aggregate =>
    some (storeComputed env state dst keys weights fun sets =>
      zunionCompute env.arith aggregate (withWeights env.arith weights sets))
  | .zinterstore dst keys weights aggregate =>
    some (storeComputed env state dst keys weights fun sets =>
      zinterCompute env.arith aggregate (withWeights env.arith weights sets))
  | .zdiffstore dst keys => some (storeComputed env state dst keys [] zdiffCompute)
  | .zrangestore dst src selection => storeSelection env state dst src selection

/-- The keys after a command. -/
def stepSets (env : Env S) (state : Sets κ S M) (command : KeyCommand κ S M) : Sets κ S M :=
  match execute env state command with
  | some (.ok (state', _)) => state'
  | _ => state

end Execute

end Lux.ScoredSets
