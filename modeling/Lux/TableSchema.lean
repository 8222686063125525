import Lux.StdText

/-!
# Columns and stored values

The column types of a table, what a submitted text must look like to be stored in a column
(`validate_value`), what is stored for it (`encode_value`) and what is read back
(`decode_value`). A stored value is kept as the typed value its bytes encode.

Three things the engine calls are left open, as functions nothing is assumed about: the JSON reader
of `serde_json`, the text of a JSON document kept in binary form, and Unicode lower case.
-/

namespace Lux

open StdText

/-- A JSON value; a number is given by its text. -/
inductive Json where
  | null
  | bool (b : Bool)
  | number (text : Str)
  | string (s : Str)
  | array (elements : List Json)
  | object (members : List (Str × Json))

/-- The functions of the engine's surroundings. -/
structure Externals where
  /-- `serde_json::from_str`. -/
  fromStr : Str → Option Json
  /-- The text of a stored document: `jsonb::to_json_string` of `jsonb::encode`. -/
  jsonText : Json → Str
  /-- `str::to_lowercase`. -/
  toLowercase : Str → Str

/-! ### Columns -/

/-- The column types. -/
inductive FieldType where
  | str | int | float | bool | timestamp | uuid
  | vector (dims : Nat)
  | json | array
  | ref (table : Str)
deriving DecidableEq

/-- What happens to a row when the row it refers to is deleted. -/
inductive OnDelete where
  | restrict | cascade | setNull
deriving DecidableEq

/-- A foreign key. -/
structure ForeignKey where
  table : Str
  column : Str
  onDelete : OnDelete
deriving DecidableEq

/-- A column definition. -/
structure FieldDef where
  name : Str
  fieldType : FieldType
  primaryKey : Bool := false
  unique : Bool := false
  nullable : Bool := true
  defaultValue : Option Str := none
  sequencePartition : Option Str := none
  references : Option ForeignKey := none
  encrypted : Bool := false
  searchable : Bool := false
deriving DecidableEq

/-- The columns of a table. Of what `is_valid_name` asks of a column name (letters, digits and
`_`) the schema carries that it is not empty and has no dot. -/
structure Schema where
  fields : List FieldDef
  named : ∀ f ∈ fields, f.name ≠ [] ∧ '.' ∉ f.name
  distinct : (fields.map (·.name)).Nodup
deriving DecidableEq

namespace Schema

/-- The column of that name. -/
def find (s : Schema) (name : Str) : Option FieldDef := s.fields.find? (·.name == name)

/-- Rows of a table without a declared primary key are stored under an implicit `id`. -/
def implicitPk (s : Schema) : Bool := !s.fields.any (·.primaryKey)

variable {f : FieldDef} {s : Schema} {name : Str}

theorem find_name (h : s.find name = some f) : f.name = name := by
  have := List.find?_some h
  simpa using this

theorem find_mem (h : s.find name = some f) :
    f ∈ s.fields := List.mem_of_find?_eq_some h

/-- Column names have no dot. -/
theorem find_no_dot (h : s.find name = some f) :
    '.' ∉ name := find_name h ▸ (s.named f (find_mem h)).2

end Schema

/-- A row as the engine hands it around: column names with the texts of their values. -/
abbrev Row := List (Str × Str)

namespace Row

/-- The value of a column; a column without a value is `NULL`. -/
def get (row : Row) (name : Str) : Option Str := row.lookup name

end Row

/-! ### Vectors and UUIDs -/

/-- `parse_vector_literal`. -/
def parseVectorLiteral (value : Str) : Except Str (List F32) :=
  let trimmed := ((trim value).dropWhile (· == '[')).rdropWhile (· == ']')
  if trimmed = [] then .error (str "ERR vector requires at least one float value")
  else
    let parts := ((trimmed.splitOnP fun c => c == ',' || c == ' ').map trim).filter (· ≠ [])
    parts.mapM fun part =>
      match parseF32 part with
      | some x => .ok x
      | none => .error (str "ERR invalid vector value '" ++ part ++ str "'")

/-- `parse_vector_value`. -/
def parseVectorValue (value : Str) (dims : Nat) : Except Str (List F32) := do
  let vector ← parseVectorLiteral value
  if vector.length ≠ dims then
    .error (str "ERR VECTOR(" ++ showNat dims ++ str ") expected " ++ showNat dims ++
      str " values, got " ++ showNat vector.length)
  else .ok vector

/-- `format_vector_value`. -/
def formatVectorValue (vector : List F32) : Str := join (str ",") (vector.map showF32)

/-- `char::is_ascii_hexdigit`. -/
def isHexDigit (c : Char) : Bool :=
  ('0' ≤ c && c ≤ '9') || ('a' ≤ c && c ≤ 'f') || ('A' ≤ c && c ≤ 'F')

/-- The digits of a UUID in lower case, or nothing if there are not 32 of them. Characters that
are not hexadecimal digits are passed over. -/
def uuidDigits (value : Str) : Option Str :=
  let hex := value.filter isHexDigit
  if hex.length = 32 then some (hex.map asciiLower) else none

/-- The canonical form `xxxxxxxx-xxxx-xxxx-xxxx-xxxxxxxxxxxx`. -/
def uuidText (digits : Str) : Str :=
  join (str "-") [digits.take 8, (digits.drop 8).take 4, (digits.drop 12).take 4,
    (digits.drop 16).take 4, digits.drop 20]

/-! ### Values -/

/-- A stored value. -/
inductive Cell where
  | text (s : Str)
  | int (i : Int)
  | float (x : F64)
  | bool (b : Bool)
  | uuid (digits : Str)
  | json (j : Json)

/-- A message about a value. -/
def invalid (kind : String) (value : Str) : Str :=
  str "ERR invalid " ++ str kind ++ str " '" ++ value ++ str "'"

/-- Read an integer or fail with a message. -/
def intCell (kind : String) (value : Str) : Except Str Cell :=
  match parseI64 value with
  | some i => .ok (.int i)
  | none => .error (invalid kind value)

/-- `FieldType::encode_value`; `now` is the clock in epoch milliseconds. -/
def encodeValue (ext : Externals) (now : Int) : FieldType → Str → Except Str Cell
  | .str, v => .ok (.text v)
  | .int, v => intCell "int" v
  | .float, v =>
    match parseF64 v with
    | some x => .ok (.float x)
    | none => .error (invalid "float" v)
  | .bool, v =>
    if v = str "true" ∨ v = str "1" then .ok (.bool true)
    else if v = str "false" ∨ v = str "0" then .ok (.bool false)
    else .error (invalid "bool" v)
  | .timestamp, v => if v = str "*" then .ok (.int now) else intCell "timestamp" v
  | .uuid, v =>
    match uuidDigits v with
    | some digits => .ok (.uuid digits)
    | none => .error (invalid "UUID" v)
  | .vector dims, v => do
    let vector ← parseVectorValue v dims
    .ok (.text (formatVectorValue vector))
  | .json, v =>
    match ext.fromStr v with
    | some j => .ok (.json j)
    | none => .error (invalid "JSON" v)
  | .array, v =>
    match ext.fromStr v with
    | some (.array elements) => .ok (.json (.array elements))
    | some _ => .error (str "ERR expected JSON array, got '" ++ v ++ str "'")
    | none => .error (invalid "JSON array" v)
  | .ref _, v => intCell "ref" v

/-- `FieldType::decode_value`, on a value stored by the same type. -/
def decodeValue (ext : Externals) : Cell → Str
  | .text s => s
  | .int i => showInt i
  | .float x => showF64 x
  | .bool true => str "true"
  | .bool false => str "false"
  | .uuid digits => uuidText digits
  | .json j => ext.jsonText j

/-- A message about a value a column does not take. -/
def expects (f : FieldDef) (what : String) (value : Str) : Str :=
  str "ERR column '" ++ f.name ++ str "' expects " ++ str what ++ str ", got '" ++ value ++ str "'"

/-- `validate_value`. -/
def validateValue (ext : Externals) (f : FieldDef) (v : Str) : Except Str Unit :=
  match f.fieldType with
  | .str => .ok ()
  | .int | .ref _ => if (parseI64 v).isSome then .ok () else .error (expects f "INT" v)
  | .float => if (parseF64 v).isSome then .ok () else .error (expects f "FLOAT" v)
  | .bool =>
    if v ∈ [str "true", str "false", str "1", str "0"] then .ok ()
    else .error (expects f "BOOL (true/false/1/0)" v)
  | .timestamp =>
    if v = str "*" then .ok ()
    else if (parseI64 v).isSome then .ok ()
    else .error (expects f "TIMESTAMP (epoch ms or *)" v)
  | .uuid =>
    if (uuidDigits v).isSome then .ok ()
    else .error (expects f "UUID (xxxxxxxx-xxxx-xxxx-xxxx-xxxxxxxxxxxx)" v)
  | .vector dims => (parseVectorValue v dims).map fun _ => ()
  | .json => if (ext.fromStr v).isSome then .ok () else .error (expects f "JSON" v)
  | .array =>
    match ext.fromStr v with
    | some (.array _) => .ok ()
    | _ => .error (expects f "a JSON array" v)

/-- What a column gives back for a text stored in it. -/
def storedText (ext : Externals) (now : Int) (ft : FieldType) (v : Str) : Except Str Str :=
  (encodeValue ext now ft v).map (decodeValue ext)

end Lux
