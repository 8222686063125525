import Lux.ColdTier
import Lux.StringCommands

/-!
# Hash commands

The commands on a hash, each as what it does to the entry under its key. A field may carry a
deadline in epoch milliseconds, and nothing removes a field when its deadline passes: a command
looks past such fields, or removes them before it starts. Which command does which is modelled
here as the source has it, command by command.

A command reads two clocks: `now` for the deadline of the key, and `nowMs` for those of the
fields. What it takes from the rest of the server is an `Env`.
-/

/-- A pass that threads a state through a list and collects an output for each element. -/
def List.thread {σ α β : Type} (step : σ → α → σ × β) : σ → List α → σ × List β
  | s, [] => (s, [])
  | s, a :: rest =>
    let (s, b) := step s a
    let (s, out) := rest.thread step s
    (s, b :: out)

namespace Lux

open ByteCodec StdText KeyedList

/-! ## Fields and their deadlines -/

namespace HashData

/-- `HashData::default`. -/
def empty : HashData := ⟨[], []⟩

/-- `field_expired`. -/
def fieldExpired (map : HashData) (field : Str) (nowMs : Int64) : Bool :=
  (map.expiries.lookup field).any fun deadline => deadline ≤ nowMs

/-- `get_live`. -/
def getLive (map : HashData) (field : Str) (nowMs : Int64) : Option Bytes :=
  if map.fieldExpired field nowMs then none else map.fields.lookup field

/-- `contains_live`. -/
def containsLive (map : HashData) (field : Str) (nowMs : Int64) : Bool :=
  (map.fields.lookup field).isSome && !map.fieldExpired field nowMs

/-- `live_iter`. -/
def liveIter (map : HashData) (nowMs : Int64) : List (Str × Bytes) :=
  map.fields.filter fun p => !map.fieldExpired p.1 nowMs

/-- `live_len`. -/
def liveLen (map : HashData) (nowMs : Int64) : Nat :=
  (map.fields.map Prod.fst).countP fun field => !map.fieldExpired field nowMs

/-- A field is removed together with its deadline. -/
def removeField (map : HashData) (field : Str) : HashData :=
  ⟨erase map.fields field, erase map.expiries field⟩

/-- A value is written and the deadline of the field is dropped. -/
def overwrite (map : HashData) (field : Str) (value : Bytes) : HashData :=
  ⟨put map.fields field value, erase map.expiries field⟩

/-- `purge_expired`. -/
def purgeExpired (map : HashData) (nowMs : Int64) : HashData :=
  ((map.expiries.filter fun p => p.2 ≤ nowMs).map Prod.fst).foldl removeField map

end HashData

/-- `type_name`. -/
def StoreValue.typeName : StoreValue → String
  | .str _ => "string"
  | .list _ => "list"
  | .hash _ => "hash"
  | .set _ => "set"
  | .sortedSet _ => "zset"
  | .stream _ => "stream"
  | .vector .. => "vector"
  | .hyperLogLog _ => "string"
  | .timeSeries .. => "timeseries"

namespace Hashes

open Strings (wrongType storedInteger)
open BitField (integerErr)

inductive Reply where
  | ok
  | integer (n : Int)
  | integers (results : List Int)
  | bulk (value : Option Bytes)
  | bulks (values : List (Option Bytes))
  | page (next : Nat) (items : List Bytes)
  /-- A page that breaks off with an error in front of a value that cannot be decrypted. -/
  | cutPage (next announced : Nat) (items : List Bytes) (message : String)
  | simple (text : String)
  | error (message : String)
  /-- The server is gone: an index was out of bounds. -/
  | crash
  deriving DecidableEq

/-- What the commands take from the rest of the server. -/
structure Env where
  isEncryptedValue : Bytes → Bool
  /-- The nonce, the field and the value. -/
  encryptHashFieldValue : Nat → Bytes → Bytes → Except String Bytes
  decryptHashFieldValue : Bytes → Bytes → Except String Bytes
  /-- `from_utf8_lossy`, whose text has a replacement character for what is not UTF-8. -/
  lossy : Bytes → Str
  lossy_ne_nil : ∀ bytes, fromUtf8? bytes = none → lossy bytes ≠ []
  globMatches : Str → Str → Bool

/-- `key_str`: a name that is not UTF-8 is read as the empty one. -/
def keyStr (field : Bytes) : Str := (fromUtf8? field).getD []

/-- The entry, unless its deadline has passed. -/
def live (slot : Option Entry) (now : Instant) : Option Entry :=
  slot.filter fun entry => !entry.isExpiredAt now

/-- A command that only reads the hash. -/
def reading {α : Type} (slot : Option Entry) (now : Instant) (absent wrong : α)
    (body : HashData → α) : α :=
  match live slot now with
  | none => absent
  | some entry =>
    match entry.value with
    | .hash map => body map
    | _ => wrong

/-- A command that changes a hash where it is, and may say that the key is to be dropped. -/
def changing (slot : Option Entry) (now : Instant) (absent : Reply)
    (body : HashData → HashData × Reply) (drops : HashData → Bool) : Option Entry × Reply :=
  match live slot now with
  | none => (slot, absent)
  | some entry =>
    match entry.value with
    | .hash map =>
      let (map, reply) := body map
      (if drops map then none else some { entry with value := .hash map }, reply)
    | _ => (slot, .error wrongType)

/-- A command that starts a new hash when there is none, or when the deadline of the key has
passed. -/
def upserting (slot : Option Entry) (now : Instant) (body : HashData → HashData × Reply) :
    Option Entry × Reply :=
  let entry := (live slot now).getD ⟨.hash .empty, none⟩
  match entry.value with
  | .hash map =>
    let (map, reply) := body map
    (some { entry with value := .hash map }, reply)
  | _ => (some entry, .error wrongType)

/-- The key of a hash without fields is dropped. -/
def isEmpty (map : HashData) : Bool := map.fields.isEmpty

def keeps (_ : HashData) : Bool := false

section Commands

variable (env : Env) (slot : Option Entry) (now : Instant) (nowMs : Int64)

/-! ## Reads -/

/-- `hget_from_shard`. -/
def hgetFromShard (field : Bytes) : Option Bytes :=
  reading slot now none none fun map => map.getLive (keyStr field) nowMs

/-- The reply of `cmd_hget` to a live value. -/
def hgetReply (field : Bytes) : Option Bytes → Reply
  | none => .bulk none
  | some value =>
    match env.decryptHashFieldValue field value with
    | .ok value => .bulk (some value)
    | .error message => .error message

/-- `cmd_hget`. -/
def cmdHget (field : Bytes) : Reply :=
  reading slot now (.bulk none) (.bulk none) fun map =>
    hgetReply env field (map.getLive (keyStr field) nowMs)

/-- The value of a field, if it is there and can be decrypted. -/
def decrypted (field : Bytes) (value : Option Bytes) : Option Bytes :=
  value.bind fun value => (env.decryptHashFieldValue field value).toOption

/-- `cmd_hmget`: a value that cannot be decrypted is reported missing. -/
def cmdHmget (fields : List Bytes) : Reply :=
  let missing := Reply.bulks (fields.map fun _ => none)
  reading slot now missing missing fun map =>
    .bulks (fields.map fun field => decrypted env field (map.getLive (keyStr field) nowMs))

/-- The values of some pairs, decrypted. -/
def decryptPairs (pairs : List (Str × Bytes)) : Except String (List (Str × Bytes)) :=
  pairs.mapM fun p => (env.decryptHashFieldValue (utf8 p.1) p.2).map fun value => (p.1, value)

/-- Names and values in turn. -/
def interleave (pairs : List (Str × Bytes)) : List Bytes :=
  pairs.flatMap fun p => [utf8 p.1, p.2]

def bulksOf (values : List Bytes) : Reply := .bulks (values.map some)

/-- The reply of `cmd_hgetall` to the live pairs. -/
def hgetallReply (pairs : List (Str × Bytes)) : Reply :=
  match decryptPairs env pairs with
  | .ok pairs => bulksOf (interleave pairs)
  | .error message => .error message

/-- `cmd_hgetall`. -/
def cmdHgetall : Reply :=
  reading slot now (.bulks []) (.error wrongType) fun map =>
    hgetallReply env (map.liveIter nowMs)

/-- `cmd_hkeys`. -/
def cmdHkeys : Reply :=
  reading slot now (.bulks []) (.error wrongType) fun map =>
    bulksOf ((map.liveIter nowMs).map fun p => utf8 p.1)

/-- The reply of `cmd_hvals` to the live pairs. -/
def hvalsReply (pairs : List (Str × Bytes)) : Reply :=
  match decryptPairs env pairs with
  | .ok pairs => bulksOf (pairs.map Prod.snd)
  | .error message => .error message

/-- `cmd_hvals`. -/
def cmdHvals : Reply :=
  reading slot now (.bulks []) (.error wrongType) fun map => hvalsReply env (map.liveIter nowMs)

/-- `cmd_hlen`. -/
def cmdHlen : Reply :=
  reading slot now (.integer 0) (.error wrongType) fun map => .integer (map.liveLen nowMs)

/-- `cmd_hexists`. -/
def cmdHexists (field : Bytes) : Reply :=
  reading slot now (.integer 0) (.error wrongType) fun map =>
    .integer (map.containsLive (keyStr field) nowMs).toNat

/-- `cmd_hstrlen`: the deadline of the field is not looked at. -/
def cmdHstrlen (field : Bytes) : Reply :=
  reading slot now (.integer 0) (.integer 0) fun map =>
    .integer ((map.fields.lookup (keyStr field)).elim 0 fun value => value.length)

def rangeErr : String := "ERR value is out of range"

/-- The number of fields `cmd_hrandfield` is asked for. -/
def absCount (count : Int64) (withValues : Bool) : Except String Nat :=
  if count = Int64.minValue then .error rangeErr
  else if withValues ∧ (Int64.maxValue / 2).toInt < count.toInt.natAbs then .error rangeErr
  else .ok count.toInt.natAbs

/-- The fields picked from the live ones; an empty list has no first element to pick. -/
def pick (all : List (Str × Bytes)) (seed : Nat) (count : Int64) :
    Option (List (Str × Bytes)) :=
  let n := count.toInt.natAbs
  if count < 0 then
    (List.range n).mapM fun i => all[(seed + i * 7919) % 2 ^ 64 % all.length]?
  else
    (List.range (min n all.length)).mapM fun i => all[(seed % all.length + i) % all.length]?

/-- The reply of `cmd_hrandfield` to the live pairs. -/
def hrandfieldReply (all : List (Str × Bytes)) (count : Option Int64) (withValues : Bool)
    (seed : Nat) : Reply :=
  match count with
  | none => .bulk (all[seed % all.length]?.map fun p => utf8 p.1)
  | some count =>
    if count = 0 then .bulks []
    else
      match pick all seed count with
      | none => .crash
      | some picked =>
        bulksOf (if withValues then interleave picked else picked.map fun p => utf8 p.1)

/-- `cmd_hrandfield`. -/
def cmdHrandfield (count : Option Int64) (withValues : Bool) (seed : Nat) : Reply :=
  match count.elim (.ok 0) fun count => absCount count withValues with
  | .error message => .error message
  | .ok _ =>
    let none := if count.isNone then Reply.bulk none else .bulks []
    reading slot now none (.error "WRONGTYPE") fun map =>
      hrandfieldReply (map.liveIter nowMs) count withValues seed

/-- The names and values of a page in turn, and the error in place of the first value that cannot be
decrypted, behind which nothing is written. -/
def pageItems : List (Str × Bytes) → List Bytes × Option String
  | [] => ([], none)
  | p :: rest =>
    match env.decryptHashFieldValue (utf8 p.1) p.2 with
    | .ok value => (pageItems rest).map (fun items => utf8 p.1 :: value :: items) id
    | .error message => ([utf8 p.1], some message)

/-- The reply of `cmd_hscan` to the live pairs: one page of them. The end of the page is computed
in 64 bits, and one in front of its start is out of bounds. -/
def hscanReply (all : List (Str × Bytes)) (cursor count : Nat) (pattern : Option Str)
    (novalues : Bool) : Reply :=
  let first := min cursor all.length
  let last := min ((first + count) % 2 ^ 64) all.length
  let next := if all.length ≤ last then 0 else last
  if last < first then .crash
  else
    let filtered := ((all.drop first).take (last - first)).filter fun p =>
      pattern.all fun pattern => env.globMatches pattern p.1
    if novalues then .page next (filtered.map fun p => utf8 p.1)
    else
      match pageItems env filtered with
      | (items, none) => .page next items
      | (items, some message) => .cutPage next (2 * filtered.length) items message

/-- `cmd_hscan`. -/
def cmdHscan (cursor count : Nat) (pattern : Option Str) (novalues : Bool) : Reply :=
  reading slot now (.page 0 []) (.error "WRONGTYPE") fun map =>
    hscanReply env (map.liveIter nowMs) cursor count pattern novalues

/-- `TtlForm`. -/
inductive TtlForm where
  | seconds
  | millis
  | expireSeconds
  | expireMillis
  deriving DecidableEq

/-- A deadline as one of the four queries reports it. -/
def TtlForm.report (nowMs : Int64) : TtlForm → Int64 → Int
  | .seconds, ms => max ((ms - nowMs + 999).toInt / 1000) 0
  | .millis, ms => max (ms - nowMs).toInt 0
  | .expireSeconds, ms => ms.toInt / 1000
  | .expireMillis, ms => ms.toInt

/-- `cmd_httl_generic`. -/
def cmdHttl (form : TtlForm) (fields : List Bytes) : Reply :=
  reading slot now (.integers (fields.map fun _ => -2)) (.error wrongType) fun map =>
    .integers (fields.map fun field =>
      if map.containsLive (keyStr field) nowMs then
        (map.expiries.lookup (keyStr field)).elim (-1) (form.report nowMs)
      else -2)

/-- `cmd_exists`. -/
def cmdExists : Reply := .integer (live slot now).isSome.toNat

/-- `cmd_type`. -/
def cmdType : Reply :=
  .simple ((live slot now).elim "none" fun entry => entry.value.typeName)

/-! ## Writes -/

/-- The pairs as they are stored, given what the fields hold: a field that holds an encrypted value
stays encrypted. -/
def storedPairs (encrypted : Bool) (nonce : Nat) (existing : Str → Option Bytes)
    (pairs : List (Bytes × Bytes)) : Except String (List (Bytes × Bytes)) :=
  pairs.mapM fun p =>
    if encrypted || (existing (keyStr p.1)).any env.isEncryptedValue then
      (env.encryptHashFieldValue nonce p.1 p.2).map fun stored => (p.1, stored)
    else .ok p

/-- `prepare_hset_kv`: a field is taken for held although its deadline has passed. -/
def prepareHset (encrypted : Bool) (nonce : Nat) (pairs : List (Bytes × Bytes)) :
    Except String (List (Bytes × Bytes)) :=
  reading slot now (storedPairs env encrypted nonce (fun _ => none) pairs) (.error wrongType)
    fun map => storedPairs env encrypted nonce (fun name => map.fields.lookup name) pairs

/-- One pair of `hset_on_shard`, and whether the field is new. -/
def hsetPair (map : HashData) (pair : Bytes × Bytes) : HashData × Bool :=
  let name := keyString env.lossy pair.1
  (map.overwrite name pair.2, (map.fields.lookup name).isNone)

/-- The body of `hset_on_shard`, with the reply of `HSET` or `HMSET`. -/
def hsetMap (isHmset : Bool) (pairs : List (Bytes × Bytes)) (map : HashData) :
    HashData × Reply :=
  let (map, added) := pairs.thread (hsetPair env) (map.purgeExpired nowMs)
  (map, if isHmset then .ok else .integer (added.count true))

/-- `cmd_hset`, for `HSET` and `HMSET`. -/
def cmdHset (isHmset encrypted : Bool) (nonce : Nat) (pairs : List (Bytes × Bytes)) :
    Option Entry × Reply :=
  match prepareHset env slot now encrypted nonce pairs with
  | .error message => (slot, .error message)
  | .ok stored => upserting slot now (hsetMap env nowMs isHmset stored)

/-- The body of `hsetnx`: the deadline of the field is not looked at. -/
def hsetnxMap (field value : Bytes) (map : HashData) : HashData × Reply :=
  if (map.fields.lookup (keyStr field)).isSome then (map, .integer 0)
  else ({ map with fields := put map.fields (keyStr field) value }, .integer 1)

/-- `cmd_hsetnx`. -/
def cmdHsetnx (field value : Bytes) : Option Entry × Reply :=
  upserting slot now (hsetnxMap field value)

/-- One field of `hdel`, and whether it counts. -/
def hdelField (map : HashData) (field : Bytes) : HashData × Bool :=
  (map.removeField (keyStr field),
    (map.fields.lookup (keyStr field)).isSome && !map.fieldExpired (keyStr field) nowMs)

/-- The body of `hdel`: other fields whose deadline has passed stay. -/
def hdelMap (fields : List Bytes) (map : HashData) : HashData × Reply :=
  let (map, removed) := fields.thread (hdelField nowMs) map
  (map, .integer (removed.count true))

/-- `cmd_hdel`. -/
def cmdHdel (fields : List Bytes) : Option Entry × Reply :=
  changing slot now (.integer 0) (hdelMap nowMs fields) isEmpty

def hashIntegerErr : String := "ERR hash value is not an integer"

def hashFloatErr : String := "ERR hash value is not a valid float"

/-- The body of `hincrby_on_shard` behind the purge: the deadline goes before the value is read, and
the sum is taken in 64 bits. -/
def hincrbyPurged (field : Bytes) (delta : Int64) (map : HashData) : HashData × Reply :=
  let map := { map with expiries := erase map.expiries (keyStr field) }
  match map.fields.lookup (keyStr field) with
  | some value =>
    match storedInteger value with
    | none => (map, .error hashIntegerErr)
    | some current =>
      let sum := Machine64.wrap (current + delta.toInt)
      ({ map with fields := put map.fields (keyStr field) (utf8 (showInt sum)) }, .integer sum)
  | none =>
    ({ map with
        fields := put map.fields (keyString env.lossy field) (utf8 (showInt delta.toInt)) },
      .integer delta.toInt)

/-- The body of `hincrby_on_shard`. -/
def hincrbyMap (field : Bytes) (delta : Int64) (map : HashData) : HashData × Reply :=
  hincrbyPurged env field delta (map.purgeExpired nowMs)

/-- `cmd_hincrby`. -/
def cmdHincrby (field : Bytes) (delta : Int64) : Option Entry × Reply :=
  upserting slot now (hincrbyMap env nowMs field delta)

/-- The number a field holds; any float counts. -/
def storedDouble (value : Bytes) : Option F64 := (fromUtf8? value).bind parseF64

/-- The body of `hincrbyfloat`: the deadline of the field is not looked at and stays. -/
def hincrbyfloatMap (field : Bytes) (delta : F64) (map : HashData) : HashData × Reply :=
  let insert (current : F64) : HashData × Reply :=
    let text := utf8 (showF64 (current.add delta))
    ({ map with fields := put map.fields (keyStr field) text }, .bulk (some text))
  match map.fields.lookup (keyStr field) with
  | none => insert (Float.Model.ofBits 0)
  | some value =>
    match storedDouble value with
    | none => (map, .error hashFloatErr)
    | some current => insert current

/-- `cmd_hincrbyfloat`. -/
def cmdHincrbyfloat (field : Bytes) (delta : F64) : Option Entry × Reply :=
  upserting slot now (hincrbyfloatMap field delta)

/-! ## Deadlines of fields -/

/-- `ExpireUnit`. -/
inductive ExpireUnit where
  | seconds
  | millis
  | secondsAt
  | millisAt
  deriving DecidableEq

/-- A result that is kept inside the 64-bit range. -/
def saturate (x : Int) : Int64 :=
  Int64.ofInt (max Machine64.minValue (min Machine64.maxValue x))

/-- The deadline that an amount stands for. -/
def ExpireUnit.deadline (nowMs : Int64) : ExpireUnit → Int64 → Int64
  | .seconds, ttl => saturate (nowMs.toInt + (saturate (ttl.toInt * 1000)).toInt)
  | .millis, ttl => saturate (nowMs.toInt + ttl.toInt)
  | .secondsAt, ttl => saturate (ttl.toInt * 1000)
  | .millisAt, ttl => ttl

/-- `HExpireCond`. -/
inductive ExpireCond where
  | none
  | nx
  | xx
  | gt
  | lt
  deriving DecidableEq

/-- Whether a condition lets a deadline take the place of the current one. -/
def ExpireCond.allows (deadline : Int64) : ExpireCond → Option Int64 → Bool
  | .none, _ => true
  | .nx, current => current.isNone
  | .xx, current => current.isSome
  | .gt, current => current.any fun c => c < deadline
  | .lt, current => current.all fun c => deadline < c

/-- One field of `hexpire_fields`. -/
def hexpireField (deadline : Int64) (cond : ExpireCond) (map : HashData) (field : Bytes) :
    HashData × Int :=
  let name := keyStr field
  if (map.fields.lookup name).isNone then (map, -2)
  else if !cond.allows deadline (map.expiries.lookup name) then (map, 0)
  else if deadline ≤ nowMs then (map.removeField name, 2)
  else ({ map with expiries := put map.expiries name deadline }, 1)

/-- The body of `hexpire_fields`. -/
def hexpireMap (deadline : Int64) (cond : ExpireCond) (fields : List Bytes) (map : HashData) :
    HashData × Reply :=
  let (map, results) := fields.thread (hexpireField nowMs deadline cond) (map.purgeExpired nowMs)
  (map, .integers results)

/-- `cmd_hexpire_generic`. -/
def cmdHexpire (unit : ExpireUnit) (ttl : Int64) (cond : ExpireCond) (fields : List Bytes) :
    Option Entry × Reply :=
  changing slot now (.integers (fields.map fun _ => -2))
    (hexpireMap nowMs (unit.deadline nowMs ttl) cond fields) isEmpty

/-- One field of `hpersist_fields`. -/
def hpersistField (map : HashData) (field : Bytes) : HashData × Int :=
  let name := keyStr field
  if (map.fields.lookup name).isNone then (map, -2)
  else if (map.expiries.lookup name).isSome then
    ({ map with expiries := erase map.expiries name }, 1)
  else (map, -1)

/-- The body of `hpersist_fields`. -/
def hpersistMap (fields : List Bytes) (map : HashData) : HashData × Reply :=
  let (map, results) := fields.thread hpersistField (map.purgeExpired nowMs)
  (map, .integers results)

/-- `cmd_hpersist`: a hash that has lost its last field stays. -/
def cmdHpersist (fields : List Bytes) : Option Entry × Reply :=
  changing slot now (.integers (fields.map fun _ => -2)) (hpersistMap nowMs fields) keeps

/-- One field of `hgetdel_fields`. -/
def hgetdelField (map : HashData) (field : Bytes) : HashData × Option Bytes :=
  (map.removeField (keyStr field), decrypted env field (map.fields.lookup (keyStr field)))

/-- The body of `hgetdel_fields`. -/
def hgetdelMap (fields : List Bytes) (map : HashData) : HashData × Reply :=
  let (map, values) := fields.thread (hgetdelField env) (map.purgeExpired nowMs)
  (map, .bulks values)

/-- `cmd_hgetdel`. -/
def cmdHgetdel (fields : List Bytes) : Option Entry × Reply :=
  changing slot now (.bulks (fields.map fun _ => none)) (hgetdelMap env nowMs fields) isEmpty

/-- What `cmd_hgetex` is asked to do with the deadlines. -/
inductive GetexTtl where
  | keep
  | persist
  | set (unit : ExpireUnit) (amount : Int64)
  deriving DecidableEq

/-- One field of `hgetex_fields`. -/
def hgetexField (ttl : GetexTtl) (map : HashData) (field : Bytes) : HashData × Option Bytes :=
  let name := keyStr field
  let value := decrypted env field (map.fields.lookup name)
  if value.isNone then (map, value)
  else
    match ttl with
    | .keep => (map, value)
    | .persist => ({ map with expiries := erase map.expiries name }, value)
    | .set unit amount =>
      if unit.deadline nowMs amount ≤ nowMs then (map.removeField name, value)
      else
        ({ map with expiries := put map.expiries name (unit.deadline nowMs amount) }, value)

/-- The body of `hgetex_fields`. -/
def hgetexMap (ttl : GetexTtl) (fields : List Bytes) (map : HashData) : HashData × Reply :=
  let (map, values) := fields.thread (hgetexField env nowMs ttl) (map.purgeExpired nowMs)
  (map, .bulks values)

/-- `cmd_hgetex`. -/
def cmdHgetex (ttl : GetexTtl) (fields : List Bytes) : Option Entry × Reply :=
  changing slot now (.bulks (fields.map fun _ => none)) (hgetexMap env nowMs ttl fields) isEmpty

end Commands

/-- The commands on one hash, with their parsed arguments. -/
inductive Command where
  /-- At least one pair. -/
  | hset (isHmset encrypted : Bool) (nonce : Nat) (first : Bytes × Bytes)
      (more : List (Bytes × Bytes))
  | hsetnx (field value : Bytes)
  | hget (field : Bytes)
  | hmget (fields : List Bytes)
  | hdel (fields : List Bytes)
  | hgetall
  | hkeys
  | hvals
  | hlen
  | hexists (field : Bytes)
  | hincrby (field : Bytes) (delta : Int64)
  | hincrbyfloat (field : Bytes) (delta : F64)
  | hstrlen (field : Bytes)
  | hrandfield (count : Option Int64) (withValues : Bool) (seed : Nat)
  | hscan (cursor count : Nat) (pattern : Option Str) (novalues : Bool)
  | hexpire (unit : ExpireUnit) (ttl : Int64) (cond : ExpireCond) (fields : List Bytes)
  | httl (form : TtlForm) (fields : List Bytes)
  | hpersist (fields : List Bytes)
  | hgetdel (fields : List Bytes)
  | hgetex (ttl : GetexTtl) (fields : List Bytes)
  | exists
  | type

/-- A command on the entry under its key. -/
def execute (env : Env) (slot : Option Entry) (now : Instant) (nowMs : Int64) :
    Command → Option Entry × Reply
  | .hset isHmset encrypted nonce first more =>
    cmdHset env slot now nowMs isHmset encrypted nonce (first :: more)
  | .hsetnx field value => cmdHsetnx slot now field value
  | .hget field => (slot, cmdHget env slot now nowMs field)
  | .hmget fields => (slot, cmdHmget env slot now nowMs fields)
  | .hdel fields => cmdHdel slot now nowMs fields
  | .hgetall => (slot, cmdHgetall env slot now nowMs)
  | .hkeys => (slot, cmdHkeys slot now nowMs)
  | .hvals => (slot, cmdHvals env slot now nowMs)
  | .hlen => (slot, cmdHlen slot now nowMs)
  | .hexists field => (slot, cmdHexists slot now nowMs field)
  | .hincrby field delta => cmdHincrby env slot now nowMs field delta
  | .hincrbyfloat field delta => cmdHincrbyfloat slot now field delta
  | .hstrlen field => (slot, cmdHstrlen slot now field)
  | .hrandfield count withValues seed => (slot, cmdHrandfield slot now nowMs count withValues seed)
  | .hscan cursor count pattern novalues =>
    (slot, cmdHscan env slot now nowMs cursor count pattern novalues)
  | .hexpire unit ttl cond fields => cmdHexpire slot now nowMs unit ttl cond fields
  | .httl form fields => (slot, cmdHttl slot now nowMs form fields)
  | .hpersist fields => cmdHpersist slot now nowMs fields
  | .hgetdel fields => cmdHgetdel env slot now nowMs fields
  | .hgetex ttl fields => cmdHgetex env slot now nowMs ttl fields
  | .exists => (slot, cmdExists slot now)
  | .type => (slot, cmdType slot now)

/-- A server without encryption keys. -/
def plainEnv : Env where
  isEncryptedValue := fun _ => false
  encryptHashFieldValue := fun _ _ value => .ok value
  decryptHashFieldValue := fun _ value => .ok value
  lossy := fun _ => ['\uFFFD']
  lossy_ne_nil := fun _ _ => List.cons_ne_nil _ _
  globMatches := fun _ _ => true

end Hashes

end Lux
