import Lux.RowStatements

/-!
# Insert requests

A row that is inserted gets its missing columns from defaults and sequences and its key from the
body, a sequence, a generated UUID or a default; every value is checked by its column and stored
in the column's form (`stage_table_insert`). A token user's row has to pass the write grant
first, by the texts in the body.
-/

namespace Lux

open StdText List KeyedList

/-- Where generated values come from: a UUID for a column, and the next number of a sequence,
by the name of the column (empty for the table's keys) and the value of its partition. -/
structure Generators where
  uuid : Str → Str
  sequence : Str → Str → Int

/-! ### The values of a new row -/

/-- `resolve_default`. -/
def resolveDefault (eng : Engine) (gen : Generators) (column token : Str) : Str :=
  let quote := fun c => c == '\'' || c == '"'
  let lower := (trim token).map asciiLower
  if lower = str "uuid()" ∨ lower = str "gen_random_uuid()" then gen.uuid column
  else if lower = str "now()" then showInt eng.now
  else ((trim token).dropWhile quote).rdropWhile quote

/-- The key of the row. -/
def insertKey (eng : Engine) (gen : Generators) (s : Schema) (provided : List (Str × Str)) :
    Except Str Str :=
  match s.fields.find? (·.primaryKey) with
  | some pk =>
    match provided.lookup pk.name with
    | some v => .ok v
    | none =>
      if pk.fieldType = .int then .ok (showInt (gen.sequence [] []))
      else if pk.fieldType = .uuid then .ok (gen.uuid pk.name)
      else match pk.defaultValue with
        | some token => .ok (resolveDefault eng gen pk.name token)
        | none =>
          .error (str "ERR primary key column '" ++ pk.name ++ str "' must be provided")
  | none =>
    match provided.lookup (str "id") with
    | some v => .ok v
    | none => .ok (showInt (gen.sequence [] []))

/-! ### Checking and storing -/

variable {provided : List (Str × Str)} {eng : Engine}

end Lux
