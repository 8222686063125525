import Lux.TableSchema
import Lux.WhereText

/-!
# Filters on rows

How the engine decides whether a row meets a condition (`matches_condition`), a filter
(`row_matches_base_conditions`), and which rows an update or delete statement touches
(`scan_matching_pks`). Values are compared in the type of their column: integers with unreadable
operands taken as `0`, floats within `f64::EPSILON`, Booleans by truth, everything else as text.
-/

namespace Lux

open StdText

/-! ### `LIKE` -/

/-- The matching loop of `sql_like_matches`: text and pattern still to be matched, and behind the
last `%` the rest of the pattern with the text it was last tried on. -/
def likeLoop : Nat → Str → Str → Option (Str × Str) → Bool
  | 0, _, _, _ => false
  | _ + 1, [], pattern, _ => pattern.all (· == '%')
  | n + 1, c :: text, pattern, retry =>
    match pattern with
    | p :: more =>
      if p = '_' ∨ p = c then likeLoop n text more retry
      else if p = '%' then likeLoop n (c :: text) more (some (more, c :: text))
      else match retry with
        | some (behind, tried) => likeLoop n tried.tail behind (some (behind, tried.tail))
        | none => false
    | [] =>
      match retry with
      | some (behind, tried) => likeLoop n tried.tail behind (some (behind, tried.tail))
      | none => false

/-- `sql_like_matches`. The fuel covers one pass of the pattern for each position of the text. -/
def sqlLikeMatches (ext : Externals) (actual pattern : Str) (caseInsensitive : Bool) : Bool :=
  let text := if caseInsensitive then ext.toLowercase actual else actual
  let pat := if caseInsensitive then ext.toLowercase pattern else pattern
  likeLoop ((text.length + 1) * (pat.length + 2)) text pat none

/-! ### Comparisons -/

/-- The order of two texts. -/
def compareStr (a b : Str) : Ordering := if a < b then .lt else if a = b then .eq else .gt

/-- The comparison an operator asks for, on an order. -/
def opHolds : CmpOp → Ordering → Bool
  | .eq, o => o == .eq
  | .ne, o => o != .eq
  | .gt, o => o == .gt
  | .lt, o => o == .lt
  | .ge, o => o != .lt
  | .le, o => o != .gt
  | _, _ => false

/-- The comparison an operator asks for, on two floats; none but `!=` holds of `NaN`. -/
def floatOpHolds (op : CmpOp) (a b : F64) : Bool :=
  match op with
  | .eq => a.beq b
  | .ne => !a.beq b
  | .gt => b.lt a
  | .lt => a.lt b
  | .ge => b.le a
  | .le => a.le b
  | _ => false

/-- The truth of a stored or given Boolean. -/
def truth (s : Str) : Bool := s == str "1" || s == str "true"

/-- An integer operand; what cannot be read counts as zero. -/
def intOf (s : Str) : Int := (parseI64 s).getD 0

/-- A float operand; what cannot be read counts as zero. -/
def floatOf (s : Str) : F64 := (parseF64 s).getD (Float.Model.ofNat 0)

/-- Closeness of two floats. -/
def nearlyEqual (a b : F64) : Bool := (a.sub b).abs.lt epsilon

/-- `elem_eq`: equality in the type of a column. -/
def elemEq (ft : FieldType) (lhs rhs : Str) : Bool :=
  match ft with
  | .bool => truth lhs == truth rhs
  | .int | .timestamp | .ref _ => intOf lhs == intOf rhs
  | .float => nearlyEqual (floatOf lhs) (floatOf rhs)
  | .str | .uuid | .vector _ | .json | .array => lhs == rhs

/-- The comparison of `matches_condition` for the operators with one operand. -/
def compareTyped (ext : Externals) (ft : FieldType) (val : Str) (op : CmpOp) (rhs : Str) : Bool :=
  match ft with
  | .bool =>
    match op with
    | .eq => truth val == truth rhs
    | .ne => truth val != truth rhs
    | _ => false
  | .int | .timestamp | .ref _ => opHolds op (compare (intOf val) (intOf rhs))
  | .float =>
    let lhs := floatOf val
    let rhs := floatOf rhs
    match op with
    | .eq => nearlyEqual lhs rhs
    | .ne => epsilon.le (lhs.sub rhs).abs
    | .gt => rhs.lt lhs
    | .lt => lhs.lt rhs
    | .ge => rhs.le lhs
    | .le => lhs.le rhs
    | _ => false
  | .str | .uuid | .vector _ | .json | .array =>
    match op with
    | .like => sqlLikeMatches ext val rhs false
    | .iLike => sqlLikeMatches ext val rhs true
    | op => opHolds op (compareStr val rhs)

/-- `compare_condition_value`: as numbers if both sides read as floats, else as texts. -/
def compareConditionValue (ext : Externals) (actual : Str) (op : CmpOp) (expected : Str) : Bool :=
  match op with
  | .isNull => false
  | .isNotNull => true
  | op =>
    match parseF64 actual, parseF64 expected with
    | some a, some e => floatOpHolds op a e
    | _, _ =>
      match op with
      | .like => sqlLikeMatches ext actual expected false
      | .iLike => sqlLikeMatches ext actual expected true
      | op => opHolds op (compareStr actual expected)

/-! ### JSON -/

/-- `json_scalar_string`. -/
def jsonScalarString : Json → Option Str
  | .string s => some s
  | .number text => some text
  | .bool b => some (if b then str "true" else str "false")
  | _ => none

/-- Membership of a scalar in an array. -/
def arrayContains (elements : List Json) (needle : Str) : Bool :=
  elements.any fun el => jsonScalarString el == some needle

/-- `json_array_contains`. -/
def jsonArrayContains (ext : Externals) (raw needle : Str) : Bool :=
  match ext.fromStr raw with
  | some (.array elements) => arrayContains elements needle
  | _ => false

/-- `json_path_get`, along the segments of the path; nothing if the path is not there. -/
def jsonPathGet (root : Json) : List Str → Option Json
  | [] => some root
  | seg :: path =>
    match root with
    | .object members =>
      match members.find? (·.1 == seg) with
      | some (_, v) => jsonPathGet v path
      | none => none
    | .array elements =>
      match parseUsize seg with
      | some i =>
        match elements[i]? with
        | some v => jsonPathGet v path
        | none => none
      | none => none
    | _ => none

/-- `eval_json_path_text`: a condition on the value at a path of a JSON column. -/
def evalJsonPath (ext : Externals) (raw : Option Str) (path : Str) (c : Condition) : Bool :=
  match raw.bind ext.fromStr with
  | none => c.op == .isNotValid
  | some doc =>
    let resolved := jsonPathGet doc (path.splitOnP (· == '.'))
    let present := match resolved with
      | some .null | none => false
      | some _ => true
    match c.op with
    | .isValid => present
    | .isNotValid => !present
    | .contains =>
      match resolved with
      | some (.array elements) => arrayContains elements c.value
      | _ => false
    | op =>
      match resolved.bind jsonScalarString with
      | none => false
      | some actual =>
        match op with
        | .inList => c.values.any (compareConditionValue ext actual .eq)
        | .notIn => !c.values.any (compareConditionValue ext actual .eq)
        | op => compareConditionValue ext actual op c.value

/-! ### Conditions on a row -/

/-- `matches_condition`, for the value of the column (`none` when it is `NULL`). -/
def matchesCondition (ext : Externals) (ft : FieldType) (val : Option Str) (c : Condition) : Bool :=
  match val with
  | none => c.op == .ne || c.op == .isNull
  | some val =>
    match c.op with
    | .isNull => false
    | .isNotNull => true
    | .inList => c.values.any (elemEq ft val)
    | .notIn => !c.values.any (elemEq ft val)
    | .isValid | .isNotValid => false
    | .contains => jsonArrayContains ext val c.value
    | op => compareTyped ext ft val op c.value

/-- Whether a name is that of a JSON or ARRAY column. -/
def Schema.isJson (s : Schema) (name : Str) : Bool :=
  s.fields.any fun f => f.name == name && (f.fieldType == .json || f.fieldType == .array)

/-- `bare_col`: a column name without its qualifier. -/
def bareCol (col : Str) : Str := afterLast '.' col

/-- One condition of `row_matches_base_conditions`. -/
def rowMatchesCondition (ext : Externals) (s : Schema) (row : Row) (c : Condition) : Bool :=
  match (splitOnce '.' c.field).filter (fun p => s.isJson p.1) with
  | some (root, path) => evalJsonPath ext (row.get root) path c
  | none =>
    let bare := bareCol c.field
    match s.find bare with
    | some f => matchesCondition ext f.fieldType (row.get bare) c
    | none =>
      if bare = str "id" ∧ s.implicitPk = true then
        matchesCondition ext .int (row.get bare) c
      else true

/-- `row_matches_base_conditions`. -/
def rowMatches (ext : Externals) (s : Schema) (row : Row) (ws : List WhereClause) : Bool :=
  ws.all fun w => w.alternatives.any (rowMatchesCondition ext s row)

/-! ### Which fields a filter may name -/

/-- `is_json_path_field`. -/
def isJsonPathField (field : Str) (s : Schema) : Bool :=
  match splitOnce '.' field with
  | some (root, _) => s.isJson root
  | none => false

/-- `validate_where_field`, for one condition: the field is the implicit `id`, a path into a JSON
column, or a column. -/
def validateWhereField (s : Schema) (c : Condition) : Except Str Unit :=
  if (s.implicitPk = true ∧ c.field = str "id") ∨ isJsonPathField c.field s = true ∨
      (s.find c.field).isSome then .ok ()
  else .error (str "ERR unknown field '" ++ c.field ++ str "' in WHERE clause")

/-- `validate_encrypted_condition`, for one condition: encrypted columns can be compared for
equality when searchable, and tested for `NULL`. -/
def validateEncryptedCondition (s : Schema) (c : Condition) : Except Str Unit :=
  match (splitOnce '.' c.field).filter (fun p => p.2 ≠ []) |>.bind
      (fun p => s.fields.find? fun f => f.name == p.1 && f.encrypted) with
  | some root => .error (str "ERR encrypted column '" ++ root.name ++
      str "' does not support JSON path filters")
  | none =>
    match s.find (bareCol c.field) with
    | none => .ok ()
    | some f =>
      if !f.encrypted then .ok ()
      else match c.op with
        | .isNull | .isNotNull => .ok ()
        | .eq =>
          if f.searchable then .ok ()
          else .error (str "ERR encrypted column '" ++ f.name ++
            str "' must be SEARCHABLE for equality filters")
        | _ => .error (str "ERR encrypted column '" ++ f.name ++
            str "' only supports equality filters when SEARCHABLE")

/-- Both checks on every condition of a filter, in the order of the source. -/
def validateFilter (s : Schema) (ws : List WhereClause) : Except Str Unit :=
  ws.forM fun w => do
    w.alternatives.forM (validateEncryptedCondition s)
    w.alternatives.forM (validateWhereField s)

/-! ### The rows of a statement -/

/-- A table: its columns, and its live rows under their primary keys. -/
structure Table where
  schema : Schema
  rows : List (Str × Row)
  keys : (rows.map Prod.fst).Nodup
deriving DecidableEq

/-- The row stored under a key. -/
def Table.row (t : Table) (pk : Str) : Option Row := t.rows.lookup pk

/-- `scan_matching_pks`: among the candidates the planner proposes (from an index, or all rows),
the keys of the rows that meet every condition. -/
def scanMatchingPks (ext : Externals) (t : Table) (candidates : List Str)
    (ws : List WhereClause) : Except Str (List Str) := do
  validateFilter t.schema ws
  .ok (candidates.filter fun pk => (t.row pk).any (rowMatches ext t.schema · ws))

/-- A key that is matched is that of a row which meets the filter, and every field of the filter
is one the table has. -/
theorem scanMatchingPks_eq_ok {ext : Externals} {t : Table} {candidates matched : List Str}
    {ws : List WhereClause} (h : scanMatchingPks ext t candidates ws = .ok matched) :
    validateFilter t.schema ws = .ok () ∧
      ∀ pk ∈ matched, ∀ row, t.row pk = some row → rowMatches ext t.schema row ws = true := by
  rw [scanMatchingPks] at h
  cases hvalid : validateFilter t.schema ws with
  | error e => rw [hvalid] at h; cases h
  | ok u =>
    rw [hvalid] at h
    cases h
    refine ⟨rfl, ?_⟩
    intro pk hpk row hrow
    have hany := (List.mem_filter.mp hpk).2
    simpa [hrow] using hany

end Lux
