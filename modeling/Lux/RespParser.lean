import Lux.ByteCodec

/-!
# The RESP command parser

`Parser` is the incremental parser over a borrowed read buffer: a command is
either an inline line of words or an array of bulk strings whose lengths stand in
header lines. Each function moves the cursor of the parser and answers with a
value, with nothing when the buffer ends too early, or with a protocol error.
-/

namespace Lux.Resp

open ByteCodec

def cr : UInt8 := 13
def lf : UInt8 := 10
def space : UInt8 := 32
def star : UInt8 := 42
def dollar : UInt8 := 36
def minus : UInt8 := 45
def plus : UInt8 := 43
def zero : UInt8 := 48
def nine : UInt8 := 57

def crlf : Bytes := [cr, lf]

/-- The largest `usize`. -/
def usizeMax : Nat := 2 ^ 64 - 1

/-- The largest `isize`, which no object in memory exceeds. -/
def isizeMax : Nat := 2 ^ 63 - 1

/-- The errors of the parser. -/
inductive ProtocolError where
  | argumentCount
  | arrayCount
  | expectedBulkString
  | bulkLength
  | bulkTerminator
  deriving DecidableEq, Repr

/-- The text sent to the client. -/
def ProtocolError.text : ProtocolError → String
  | .argumentCount => "ERR RESP argument count exceeds maximum"
  | .arrayCount => "ERR RESP array count exceeds maximum"
  | .expectedBulkString => "ERR expected bulk string"
  | .bulkLength => "ERR RESP bulk length exceeds maximum"
  | .bulkTerminator => "ERR invalid bulk string terminator"

/-! ## Numbers in header lines -/

/-- The result of a checked `i64` operation. -/
def checkedI64 (value : Int) : Option Int :=
  if -2 ^ 63 ≤ value ∧ value < 2 ^ 63 then some value else none

def isAsciiDigit (byte : UInt8) : Bool := zero ≤ byte && byte ≤ nine

/-- The loop over the digits, with the value read so far. -/
def digitsLoop : Int → Bytes → Option Int
  | value, [] => some value
  | value, byte :: rest =>
    if isAsciiDigit byte then do
      let scaled ← checkedI64 (value * 10)
      let next ← checkedI64 (scaled + (byte - zero).toNat)
      digitsLoop next rest
    else none

def signAndDigits : Bytes → Bool × Bytes
  | [] => (false, [])
  | byte :: rest =>
    if byte = minus then (true, rest)
    else if byte = plus then (false, rest)
    else (false, byte :: rest)

def parseI64Bytes (line : Bytes) : Option Int :=
  match signAndDigits line with
  | (_, []) => none
  | (negative, digits) => do
      let value ← digitsLoop 0 digits
      if negative then checkedI64 (-value) else some value

/-! ## The parser -/

structure Limits where
  maxBulkLen : Nat
  maxArrayLen : Nat
  deriving DecidableEq, Repr

/-- The limits of `Parser::new`. -/
def defaultLimits : Limits := ⟨64 * 1024 * 1024, 16384⟩

structure Parser extends Limits where
  buf : Bytes
  pos : Nat
  deriving DecidableEq, Repr

/-- A request for more data is `ok none`. -/
abbrev Reply (α : Type) := Except ProtocolError (Option α)

namespace Parser

def withLimits (limits : Limits) (buf : Bytes) : Parser := ⟨limits, buf, 0⟩

/-- The bytes from the cursor onwards. -/
def rest (p : Parser) : Bytes := p.buf.drop p.pos

def advance (p : Parser) (n : Nat) : Parser := { p with pos := p.pos + n }

/-- The position of the first `\r\n`. -/
def findCrlf : Bytes → Option Nat
  | [] => none
  | [_] => none
  | a :: b :: rest =>
    if a = cr ∧ b = lf then some 0 else (findCrlf (b :: rest)).map (· + 1)

/-- An unfinished line leaves the cursor; a finished one is consumed even if it is
no number. -/
def readLineInt (p : Parser) : Option Int × Parser :=
  match findCrlf p.rest with
  | none => (none, p)
  | some k => (parseI64Bytes (p.rest.take k), p.advance (k + 2))

/-- The part of a bulk string after its length line. -/
def bulkPayload (len : Nat) (p : Parser) : Reply Bytes × Parser :=
  if p.maxBulkLen < len then (.error .bulkLength, p)
  else if usizeMax < p.pos + len + 2 then (.error .bulkLength, p)
  else if p.buf.length < p.pos + len + 2 then (.ok none, p)
  else if (p.rest.drop len).take 2 ≠ crlf then (.error .bulkTerminator, p)
  else (.ok (some (p.rest.take len)), p.advance (len + 2))

def parseBulkString (p : Parser) : Reply Bytes × Parser :=
  match p.rest with
  | [] => (.ok none, p)
  | byte :: _ =>
    if byte ≠ dollar then (.error .expectedBulkString, p)
    else
      match (p.advance 1).readLineInt with
      | (none, q) => (.ok none, q)
      | (some len, q) => if len < 0 then (.ok (some []), q) else bulkPayload len.toNat q

/-- The loop over the bulk strings of an array. `saved` is where the whole frame
started. -/
def bulkLoop (saved : Nat) : Nat → List Bytes → Parser → Reply (List Bytes) × Parser
  | 0, args, p => (.ok (some args), p)
  | n + 1, args, p =>
    match p.parseBulkString with
    | (.error error, q) => (.error error, q)
    | (.ok none, q) => (.ok none, { q with pos := saved })
    | (.ok (some arg), q) => bulkLoop saved n (args ++ [arg]) q

def parseMultibulkArgs (p : Parser) : Reply (List Bytes) × Parser :=
  match (p.advance 1).readLineInt with
  | (none, q) => (.ok none, { q with pos := p.pos })
  | (some count, q) =>
    if count < 0 then (.ok none, q)
    else if (q.maxArrayLen : Int) < count then (.error .arrayCount, q)
    else bulkLoop p.pos count.toNat [] q

/-- The line without its `\r`. -/
def stripCr (line : Bytes) : Bytes := if line.getLast? = some cr then line.dropLast else line

/-- The words of an inline line. -/
def words (line : Bytes) : List Bytes := ((stripCr line).splitOn space).filter (· ≠ [])

-- The source counts the words while it collects them and stops at the first one too many.
def parseInlineArgs (p : Parser) : Reply (List Bytes) × Parser :=
  match p.rest.idxOf? lf with
  | none => (.ok none, p)
  | some k =>
    let args := words (p.rest.take k)
    if p.maxArrayLen < args.length then (.error .argumentCount, p.advance (k + 1))
    else (.ok (some args), p.advance (k + 1))

def parseCommandArgs (p : Parser) : Reply (List Bytes) × Parser :=
  match p.rest with
  | [] => (.ok none, p)
  | byte :: _ => if byte = star then p.parseMultibulkArgs else p.parseInlineArgs

end Parser

end Lux.Resp
