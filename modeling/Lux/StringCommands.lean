import Lux.BitField
import Lux.DumpValue

/-!
# String commands

The commands that change a string, each as what it does to the entry under its key. A string is
held in one of two representations: shared bytes, or a buffer that can grow. A command is given
its arguments behind the key and checks them itself, in the order the source does.

What the commands take from the rest of the server is an `Env`: which stored bytes are encrypted,
how they are decrypted, and the limit on the size of a request.
-/

namespace Lux

/-- The value is a string. -/
def StoreValue.isString : StoreValue → Bool
  | .str _ => true
  | _ => false

namespace Strings

open ByteCodec StdText BitString BitField

/-- A value of another type than a string. -/
abbrev NonString := { value : StoreValue // value.isString = false }

/-- A value in memory: `Str`, `StrBuf`, or one that is no string. -/
inductive Value where
  | shared (bytes : Bytes)
  | growable (bytes : Bytes)
  | other (value : NonString)
  deriving DecidableEq

/-- `string_bytes`. -/
def Value.stringBytes : Value → Option Bytes
  | .shared bytes => some bytes
  | .growable bytes => some bytes
  | .other _ => none

/-- An entry in memory. -/
structure Cell where
  value : Value
  expiresAt : Option Instant
  deriving DecidableEq

/-- `is_expired_at`. -/
def Cell.isExpiredAt (cell : Cell) (now : Instant) : Bool := cell.expiresAt.any (· < now)

/-- The entry, unless its deadline has passed. -/
def live (slot : Option Cell) (now : Instant) : Option Cell :=
  slot.filter fun cell => !cell.isExpiredAt now

inductive Reply where
  | integer (n : Int)
  | bulk (value : Option Bytes)
  | integers (results : List (Option Int))
  | error (message : String)
  deriving DecidableEq

/-- What the commands take from the rest of the server. -/
structure Env where
  isEncryptedValue : Bytes → Bool
  decryptKvStringValue : Bytes → Except String Bytes
  maxRespRequest : Nat

def wrongType : String := "WRONGTYPE Operation against a key holding the wrong kind of value"

def tooLargeErr : String := "ERR string exceeds maximum allowed size"

def encryptedMutationErr : String := "ERR encrypted string does not support this mutation command"

def encryptedBitopErr : String :=
  "ERR bit operations are not supported on encrypted values (they would operate on ciphertext)"

def overflowErr : String := "ERR increment or decrement would overflow"

def floatErr : String := "ERR value is not a valid float"

def floatRangeErr : String := "ERR increment would produce NaN or Infinity"

def arityErr (name : String) : String :=
  "ERR wrong number of arguments for '" ++ name ++ "' command"

/-- The string under a key, as `get_from_shard` reads it. -/
def getRaw (slot : Option Cell) (now : Instant) : Option Bytes :=
  (live slot now).bind fun cell => cell.value.stringBytes

/-- `kv_string_is_encrypted`. -/
def kvStringIsEncrypted (env : Env) (slot : Option Cell) (now : Instant) : Bool :=
  (getRaw slot now).any env.isEncryptedValue

/-! ## The store -/

/-- `get_set`. -/
def getSet (slot : Option Cell) (now : Instant) (value : Bytes) : Option Cell × Option Bytes :=
  (some ⟨.shared value, none⟩, getRaw slot now)

/-- `getdel`. -/
def getdel (slot : Option Cell) (now : Instant) : Option Cell × Option Bytes :=
  match getRaw slot now with
  | some bytes => (none, some bytes)
  | none => (slot, none)

/-- `strlen`. -/
def strlen (slot : Option Cell) (now : Instant) : Nat := (getRaw slot now).elim 0 List.length

/-- `append`: what is no string falls through to the insertion. -/
def append (slot : Option Cell) (now : Instant) (value : Bytes) : Option Cell × Nat :=
  match live slot now with
  | some ⟨.shared bytes, expiresAt⟩ =>
    (some ⟨.growable (bytes ++ value), expiresAt⟩, (bytes ++ value).length)
  | some ⟨.growable bytes, expiresAt⟩ =>
    (some ⟨.growable (bytes ++ value), expiresAt⟩, (bytes ++ value).length)
  | _ => (some ⟨.shared value, none⟩, value.length)

/-- `copy_from_slice` into a buffer that is long enough. -/
def splice (buf : Bytes) (offset : Nat) (value : Bytes) : Bytes :=
  buf.take offset ++ value ++ buf.drop (offset + value.length)

/-- `setrange`: an entry whose deadline has passed is removed first. -/
def setrange (slot : Option Cell) (now : Instant) (offset : Nat) (value : Bytes) :
    Option Cell × Except String Int :=
  match live slot now with
  | none =>
    if value = [] then (none, .ok 0)
    else
      (some ⟨.growable (splice (grow [] (offset + value.length)) offset value), none⟩,
        .ok (offset + value.length))
  | some cell =>
    match cell.value.stringBytes with
    | none => (some cell, .error wrongType)
    | some bytes =>
      if value = [] then (some cell, .ok bytes.length)
      else
        let buf := splice (grow bytes (offset + value.length)) offset value
        (some { cell with value := .growable buf }, .ok buf.length)

/-- The entry a bit command writes into: a new one when there is none, and an emptied one when its
deadline has passed. -/
def writable (slot : Option Cell) (now : Instant) : Cell :=
  (live slot now).getD ⟨.shared [], none⟩

/-- `setbit`. -/
def setbit (slot : Option Cell) (now : Instant) (offset : Nat) (bit : Bool) :
    Option Cell × Except String Int :=
  let cell := writable slot now
  match cell.value.stringBytes with
  | none => (some cell, .error wrongType)
  | some bytes =>
    let buf := grow bytes (offset / 8 + 1)
    (some { cell with value := .growable (setBitAt buf offset bit) },
      .ok (bitAt buf offset).toNat)

/-- An operation that writes. -/
def writes : BitfieldOp → Bool
  | .get _ => false
  | _ => true

/-- `bitfield`. -/
def bitfield (slot : Option Cell) (now : Instant) (ops : List BitfieldOp) :
    Option Cell × Except String (List (Option Int)) :=
  if ops.any writes then
    let cell := writable slot now
    match cell.value.stringBytes with
    | none => (some cell, .error wrongType)
    | some bytes =>
      let (buf, results) := runOps bytes ops
      (some { cell with value := .growable buf }, .ok (results.map (Option.map Int64.toInt)))
  else
    match live slot now with
    | some cell =>
      match cell.value.stringBytes with
      | none => (slot, .error wrongType)
      | some bytes => (slot, .ok ((runOps bytes ops).2.map (Option.map Int64.toInt)))
    | none => (slot, .ok ((runOps [] ops).2.map (Option.map Int64.toInt)))

/-- An integer that a string holds. -/
def storedInteger (bytes : Bytes) : Option Int := (fromUtf8? bytes).bind parseI64

/-- `checked_add`. -/
def checkedAdd (a b : Int) : Option Int :=
  if Machine64.minValue ≤ a + b ∧ a + b ≤ Machine64.maxValue then some (a + b) else none

/-- `incr`. -/
def incr (slot : Option Cell) (now : Instant) (delta : Int64) : Option Cell × Except String Int :=
  let insert (current : Int) (expiresAt : Option Instant) : Option Cell × Except String Int :=
    match checkedAdd current delta.toInt with
    | none => (slot, .error overflowErr)
    | some n => (some ⟨.shared (utf8 (showInt n)), expiresAt⟩, .ok n)
  match live slot now with
  | none => insert 0 none
  | some cell =>
    match cell.value.stringBytes with
    | none => (slot, .error wrongType)
    | some bytes =>
      match storedInteger bytes with
      | none => (slot, .error integerErr)
      | some current => insert current cell.expiresAt

/-! ## Floats -/

/-- A float that is an integer, as an integer. -/
def integral? (x : F64) : Option Int :=
  match x.unpack with
  | .zero _ => some 0
  | .finite sign m e _ =>
    let magnitude : Option Nat :=
      if 0 ≤ e then some (m * 2 ^ e.toNat)
      else if m % 2 ^ (-e).toNat = 0 then some (m / 2 ^ (-e).toNat) else none
    magnitude.map fun n => match sign with
      | .positive => (n : Int)
      | .negative => -(n : Int)
  | _ => none

/-- `format_float`: an integer below `1e15` is written as one. -/
def formatFloat (x : F64) : Str :=
  match integral? x with
  | some n => if n.natAbs < 10 ^ 15 then showInt n else showF64 x
  | none => showF64 x

/-- A finite float, from a text without blanks. -/
def finiteFloat (text : Str) : Except String F64 :=
  if text.contains ' ' then .error floatErr
  else
    match parseF64 text with
    | none => .error floatErr
    | some x => if x.isNaN || x.isInf then .error floatRangeErr else .ok x

/-- The number a string holds: anything but a finite float is refused with one error. -/
def storedFloat (bytes : Bytes) : Option F64 := (finiteFloat (argStr bytes)).toOption

/-- `cmd_incrbyfloat` behind its argument: only shared strings are read. -/
def incrbyfloat (slot : Option Cell) (now : Instant) (delta : F64) : Option Cell × Reply :=
  let insert (current : F64) : Option Cell × Reply :=
    let sum := current.add delta
    if sum.isNaN || sum.isInf then (slot, .error floatRangeErr)
    else
      let text := utf8 (formatFloat sum)
      (some ⟨.shared text, slot.bind (·.expiresAt)⟩, .bulk (some text))
  match live slot now with
  | none => insert (Float.Model.ofBits 0)
  | some cell =>
    match cell.value with
    | .shared bytes =>
      match storedFloat bytes with
      | none => (slot, .error floatErr)
      | some current => insert current
    | _ => (slot, .error wrongType)

/-! ## The commands -/

/-- The reply to a result of the store. -/
def replied (out : Option Cell × Except String Int) : Option Cell × Reply :=
  match out with
  | (slot, .ok n) => (slot, .integer n)
  | (slot, .error message) => (slot, .error message)

section Commands

variable (env : Env) (slot : Option Cell) (now : Instant)

/-- `cmd_getset`. -/
def cmdGetset : List Bytes → Option Cell × Reply
  | value :: _ =>
    if kvStringIsEncrypted env slot now then (slot, .error encryptedMutationErr)
    else
      let (slot, old) := getSet slot now value
      (slot, .bulk old)
  | [] => (slot, .error (arityErr "getset"))

/-- `cmd_getdel`: the key is gone before its value is decrypted. -/
def cmdGetdel : List Bytes → Option Cell × Reply
  | [] =>
    match getdel slot now with
    | (slot, none) => (slot, .bulk none)
    | (slot, some bytes) =>
      match env.decryptKvStringValue bytes with
      | .ok value => (slot, .bulk (some value))
      | .error message => (slot, .error message)
  | _ => (slot, .error (arityErr "getdel"))

/-- `cmd_append`. -/
def cmdAppend : List Bytes → Option Cell × Reply
  | value :: _ =>
    if kvStringIsEncrypted env slot now then (slot, .error encryptedMutationErr)
    else if env.maxRespRequest < strlen slot now + value.length then (slot, .error tooLargeErr)
    else
      let (slot, len) := append slot now value
      (slot, .integer len)
  | [] => (slot, .error (arityErr "append"))

/-- `cmd_setrange`. -/
def cmdSetrange : List Bytes → Option Cell × Reply
  | offsetArg :: value :: _ =>
    match parseUsize (argStr offsetArg) with
    | none => (slot, .error integerErr)
    | some offset =>
      if kvStringIsEncrypted env slot now then (slot, .error encryptedMutationErr)
      else if 2 ^ 64 ≤ offset + value.length then (slot, .error integerErr)
      else if env.maxRespRequest < offset + value.length then (slot, .error tooLargeErr)
      else replied (setrange slot now offset value)
  | _ => (slot, .error (arityErr "setrange"))

/-- The offset argument of `SETBIT`. -/
def bitOffset (arg : Bytes) : Except String Nat :=
  match parseInteger arg with
  | some offset => if 0 ≤ offset.toInt then .ok offset.toInt.toNat else .error offsetErr
  | none => .error offsetErr

/-- The bit argument of `SETBIT`. -/
def bitValue (arg : Bytes) : Except String Bool :=
  if arg = [48] then .ok false
  else if arg = [49] then .ok true
  else .error "ERR bit is not an integer or out of range"

/-- The checks of `cmd_setbit` behind the one for encrypted values. -/
def setbitArgs (offsetArg bitArg : Bytes) : Except String (Nat × Bool) := do
  let offset ← bitOffset offsetArg
  let bit ← bitValue bitArg
  if env.maxRespRequest < offset / 8 + 1 then .error offsetErr else .ok (offset, bit)

/-- `cmd_setbit`. -/
def cmdSetbit : List Bytes → Option Cell × Reply
  | [offsetArg, bitArg] =>
    if kvStringIsEncrypted env slot now then (slot, .error encryptedBitopErr)
    else
      match setbitArgs env offsetArg bitArg with
      | .error message => (slot, .error message)
      | .ok (offset, bit) => replied (setbit slot now offset bit)
  | _ => (slot, .error (arityErr "setbit"))

/-- `cmd_bitfield`. -/
def cmdBitfield (args : List Bytes) : Option Cell × Reply :=
  if kvStringIsEncrypted env slot now then (slot, .error encryptedBitopErr)
  else
    match parseOps false env.maxRespRequest .wrap args with
    | .error message => (slot, .error message)
    | .ok ops =>
      match bitfield slot now ops with
      | (slot, .ok results) => (slot, .integers results)
      | (slot, .error message) => (slot, .error message)

/-- `cmd_incr` and `cmd_decr`. -/
def cmdIncrOne (name : String) (delta : Int64) : List Bytes → Option Cell × Reply
  | [] =>
    if kvStringIsEncrypted env slot now then (slot, .error encryptedMutationErr)
    else replied (incr slot now delta)
  | _ => (slot, .error (arityErr name))

def cmdIncr : List Bytes → Option Cell × Reply := cmdIncrOne env slot now "incr" 1

def cmdDecr : List Bytes → Option Cell × Reply := cmdIncrOne env slot now "decr" (-1)

/-- `cmd_incrby` and `cmd_decrby`, given what they do to their argument. -/
def cmdIncrStep (name : String) (step : Int64 → Int64) : List Bytes → Option Cell × Reply
  | arg :: _ =>
    if kvStringIsEncrypted env slot now then (slot, .error encryptedMutationErr)
    else
      match parseInteger arg with
      | some delta => replied (incr slot now (step delta))
      | none => (slot, .error integerErr)
  | [] => (slot, .error (arityErr name))

def cmdIncrby : List Bytes → Option Cell × Reply := cmdIncrStep env slot now "incrby" id

/-- The argument is negated first, in 64 bits. -/
def cmdDecrby : List Bytes → Option Cell × Reply := cmdIncrStep env slot now "decrby" (-·)

/-- `cmd_incrbyfloat`. -/
def cmdIncrbyfloat : List Bytes → Option Cell × Reply
  | [arg] =>
    if kvStringIsEncrypted env slot now then (slot, .error encryptedMutationErr)
    else
      match finiteFloat (argStr arg) with
      | .error message => (slot, .error message)
      | .ok delta => incrbyfloat slot now delta
  | _ => (slot, .error (arityErr "incrbyfloat"))

/-- The commands that change a string, `SET` apart. -/
inductive Mutation where
  | append
  | getset
  | getdel
  | setrange
  | setbit
  | bitfield
  | incr
  | decr
  | incrby
  | decrby
  | incrbyfloat
  deriving DecidableEq

/-- A command on the entry under its key. -/
def execute : Mutation → List Bytes → Option Cell × Reply
  | .append => cmdAppend env slot now
  | .getset => cmdGetset env slot now
  | .getdel => cmdGetdel env slot now
  | .setrange => cmdSetrange env slot now
  | .setbit => cmdSetbit env slot now
  | .bitfield => cmdBitfield env slot now
  | .incr => cmdIncr env slot now
  | .decr => cmdDecr env slot now
  | .incrby => cmdIncrby env slot now
  | .decrby => cmdDecrby env slot now
  | .incrbyfloat => cmdIncrbyfloat env slot now

end Commands

end Strings

end Lux
