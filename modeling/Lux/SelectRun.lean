import Lux.TableFilter

/-!
# Running a query with joins

The executor (`table_select_once`) on a query with joins, up to the rows that are grouped, put in
order and cut for the reply. Nothing is filtered before the joins: every row of the base table is
read, projected and put under qualified names, a join extends it by the rows of the right table
with the same text in the join column, and then the conditions are evaluated on the joined row. A
result row is kept with the rows of tables it was made from (`Joined.pieces`).

Queries with `NEAR` are left out.
-/

namespace Lux

open StdText

/-! ### Plans -/

/-- The aggregate functions. -/
inductive AggFunc where
  | count | sum | avg | min | max
deriving DecidableEq

/-- An aggregate: its function, its column (`none` for `*`) and its name in the reply. -/
structure AggExpr where
  func : AggFunc
  col : Option Str
  aliasName : Str
deriving DecidableEq

/-- A column of the reply. -/
structure Projection where
  expr : Str
  aliasName : Option Str
deriving DecidableEq

/-- An inner join, or one that keeps the left rows without a partner. -/
inductive JoinType where
  | inner | left
deriving DecidableEq

/-- `JOIN table alias ON left = right`. -/
structure JoinClause where
  joinType : JoinType
  table : Str
  aliasName : Str
  leftCol : Str
  rightCol : Str
deriving DecidableEq

/-- `SelectPlan`, as far as the rows in front of the grouping depend on it. -/
structure SelectPlan where
  table : Str
  aliasName : Option Str
  projections : List Projection
  aggregates : List AggExpr
  joins : List JoinClause
  conditions : List WhereClause
  groupBy : List Str
  orderBy : Option (Str × Bool)
  limit : Option Nat
  offset : Option Nat
deriving DecidableEq

/-- The name the columns of the base table are qualified with. -/
def SelectPlan.qualifier (plan : SelectPlan) : Str := plan.aliasName.getD plan.table

/-! ### Tables and results -/

/-- The tables of a database. A table name has no dot (`is_valid_name`). -/
structure Database where
  tables : List (Str × Table)
  named : ∀ p ∈ tables, '.' ∉ p.1

/-- `load_schema`, with the rows. -/
def Database.table (db : Database) (name : Str) : Except Str Table :=
  match db.tables.lookup name with
  | some t => .ok t
  | none => .error (str "ERR table '" ++ name ++ str "' does not exist")

/-- A result row: the columns it has, and the rows it was made from. -/
structure Joined where
  cells : Row
  pieces : List Row
deriving DecidableEq

/-! ### Conditions on a joined row -/

/-- The ways to split a text at a dot, from the first one on; `before` is what was passed. -/
def dotSplits (before : Str) : Str → List (Str × Str)
  | [] => []
  | c :: rest =>
    if c = '.' then (before, rest) :: dotSplits (before ++ [c]) rest
    else dotSplits (before ++ [c]) rest

/-- A condition on a value of a joined row. -/
def compareJoined (ext : Externals) (v : Str) (c : Condition) : Bool :=
  match c.op with
  | .inList => c.values.any (compareConditionValue ext v .eq)
  | .notIn => !c.values.any (compareConditionValue ext v .eq)
  | op => compareConditionValue ext v op c.value

/-- The first column of a joined row that a bare name stands for. -/
def findBare (cells : Row) (name : Str) : Option Str :=
  (cells.find? fun cell => cell.1 == name || ('.' :: name).isSuffixOf cell.1).map Prod.snd

/-- `joined_row_matches_condition`, for one condition: a qualified name must match exactly, or by
the longest part that is a column, with the rest as a path into it. -/
def joinedRowMatchesCondition (ext : Externals) (cells : Row) (c : Condition) : Bool :=
  if '.' ∈ c.field then
    match cells.lookup c.field with
    | some v => compareJoined ext v c
    | none =>
      match (dotSplits [] c.field).reverse.findSome? fun p =>
          (cells.lookup p.1).map fun raw => (raw, p.2) with
      | some (raw, path) => evalJsonPath ext (some raw) path c
      | none => c.op == .ne || c.op == .isNull
  else match findBare cells c.field with
    | some v => compareJoined ext v c
    | none => c.op == .ne || c.op == .isNull

/-- The filter on joined rows. -/
def joinedRowMatches (ext : Externals) (cells : Row) (ws : List WhereClause) : Bool :=
  ws.all fun w => w.alternatives.any (joinedRowMatchesCondition ext cells)

/-! ### Rows of the base table -/

/-- The columns a principal gets to see: encrypted ones only when authorized
(`get_row_with_map`). -/
def visibleRow (s : Schema) (decrypt : Bool) (row : Row) : Row :=
  row.filter fun cell => decrypt || !(s.find cell.1).any (·.encrypted)

/-- The columns that are kept because the reply or its order needs them. -/
def neededColumns (plan : SelectPlan) : List Str :=
  plan.projections.map (fun p => bareCol p.expr) ++ plan.aggregates.filterMap (·.col) ++
    (plan.orderBy.map fun o => bareCol o.1).toList

/-- `project_row_fields`. -/
def projectRowFields (plan : SelectPlan) (row : Row) : Row :=
  if plan.projections = [] ∧ plan.aggregates = [] then row
  else row.filter fun cell => neededColumns plan |>.contains cell.1

/-- The column of a conjunct; a group of alternatives has none. -/
def whereColumn : WhereClause → Str
  | .one c => bareCol c.field
  | .orGroup _ => []

/-- The columns kept for joins and for the filter. -/
def extraColumns (plan : SelectPlan) : List Str :=
  plan.joins.flatMap (fun j => [bareCol j.leftCol, bareCol j.rightCol]) ++
    plan.conditions.map whereColumn

/-- One more kept column. -/
def keepColumn (row : Row) (kept : Row) (name : Str) : Row :=
  match kept.lookup name, row.lookup name with
  | none, some v => kept ++ [(name, v)]
  | _, _ => kept

/-- The columns of a base row that go on. -/
def projectBase (plan : SelectPlan) (row : Row) : Row :=
  (extraColumns plan).foldl (keepColumn row)
    (if plan.groupBy = [] then projectRowFields plan row else row)

/-- A row under qualified names. -/
def qualifyRow (qualifier : Str) (row : Row) : Row :=
  row.map fun cell => (qualifier ++ '.' :: cell.1, cell.2)

/-- A base row as it goes into the result. -/
def baseJoined (plan : SelectPlan) (s : Schema) (decrypt : Bool) (row : Row) : Joined where
  cells := qualifyRow plan.qualifier (projectBase plan (visibleRow s decrypt row))
  pieces := [row]

/-! ### Joins -/

/-- `resolve_join_keys`. -/
def resolveJoinKeys (j : JoinClause) : Str × Str :=
  if (j.aliasName ++ ['.']).isPrefixOf j.rightCol then (j.leftCol, bareCol j.rightCol)
  else (j.rightCol, bareCol j.leftCol)

/-- A row of the right table behind a joined row. -/
def Joined.extend (left : Joined) (j : JoinClause) (s : Schema) (decrypt : Bool) (row : Row) :
    Joined where
  cells := left.cells ++ qualifyRow j.aliasName (visibleRow s decrypt row)
  pieces := left.pieces ++ [row]

/-- Empty columns of the right table behind a joined row. -/
def Joined.pad (left : Joined) (j : JoinClause) (s : Schema) : Joined where
  cells := left.cells ++ s.fields.map fun f => (j.aliasName ++ '.' :: f.name, [])
  pieces := left.pieces

/-- The rows of the right table with a key. -/
def rightMatches (t : Table) (decrypt : Bool) (key value : Str) : List Row :=
  (t.rows.map Prod.snd).filter fun row =>
    ((visibleRow t.schema decrypt row).lookup key).getD [] == value

/-- What one row becomes in a join. -/
def joinRow (t : Table) (j : JoinClause) (decrypt : Bool) (left : Joined) : List Joined :=
  let (leftKey, rightKey) := resolveJoinKeys j
  let probe := (findBare left.cells leftKey).getD []
  match rightMatches t decrypt rightKey probe with
  | [] => if j.joinType = .left then [left.pad j t.schema] else []
  | rows => rows.map (left.extend j t.schema decrypt)

/-- `query_candidate_error`. -/
def queryCandidateError (max : Nat) : Str :=
  str "ERR query candidate limit exceeded (" ++ showNat max ++ str ")"

/-- `ensure_candidate_count`. -/
def ensureCandidateCount (max count : Nat) : Except Str Unit :=
  if count > max then .error (queryCandidateError max) else .ok ()

/-- How many rows the only join of a query without conditions has to find. -/
def neededRows (plan : SelectPlan) : Option Nat :=
  if plan.joins.length = 1 ∧ plan.conditions = [] then
    plan.limit.map (· + plan.offset.getD 0)
  else none

/-- `hash_join`. Once there are enough rows no more are made; a first one is made in any case. -/
def hashJoin (max : Nat) (db : Database) (decrypt : Bool) (need : Option Nat) (j : JoinClause)
    (rows : List Joined) : Except Str (List Joined) := do
  let t ← db.table j.table
  ensureCandidateCount max t.rows.length
  let made := rows.flatMap (joinRow t j decrypt)
  let result := match need with
    | some n => made.take (Nat.max n 1)
    | none => made
  ensureCandidateCount max result.length
  .ok result

/-- The loop over the joins of a query. -/
def runJoins (max : Nat) (db : Database) (decrypt : Bool) (need : Option Nat) :
    List JoinClause → List Joined → Except Str (List Joined)
  | [], rows => .ok rows
  | j :: js, rows => do
    let joined ← hashJoin max db decrypt need j rows
    runJoins max db decrypt need js joined

/-! ### Checks -/

/-- `strip_alias`. -/
def stripAlias (col qualifier : Str) : Str :=
  if (qualifier ++ ['.']).isPrefixOf col then col.drop (qualifier.length + 1) else col

/-- The check of the sort column. -/
def validateOrder (s : Schema) (plan : SelectPlan) : Except Str Unit :=
  match plan.orderBy with
  | none => .ok ()
  | some (column, _) =>
    let column := stripAlias column plan.qualifier
    let root := (splitOnce '.' column).filter (fun p => p.2 ≠ []) |>.bind
      (fun p => s.fields.find? fun f => f.name == p.1 && f.encrypted)
    match root.or ((s.find (bareCol column)).filter (·.encrypted)) with
    | some f =>
      .error (str "ERR encrypted column '" ++ f.name ++ str "' does not support ORDER BY")
    | none => .ok ()

/-- `join_column_field`. -/
def joinColumnField (col : Str) (left : Schema) (leftAlias : Str) (right : Schema)
    (rightAlias : Str) : Option FieldDef :=
  match splitOnce '.' col with
  | some (name, _) =>
    if name = rightAlias then right.find (bareCol col)
    else if name = leftAlias then left.find (bareCol col)
    else none
  | none => left.find (bareCol col)

/-- `validate_encrypted_joins`. -/
def validateEncryptedJoins (db : Database) (s : Schema) (plan : SelectPlan) : Except Str Unit :=
  plan.joins.forM fun j => do
    let t ← db.table j.table
    [j.leftCol, j.rightCol].forM fun col =>
      match (joinColumnField col s plan.qualifier t.schema j.aliasName).filter (·.encrypted) with
      | some f => .error (str "ERR encrypted column '" ++ f.name ++ str "' does not support JOIN")
      | none => .ok ()

/-! ### The executor -/

/-- `table_select_once`, for a query with joins: the rows that are grouped, put in order and cut.
A query may have at most `max` candidates at each stage (`max_query_candidates`). -/
def tableSelect (ext : Externals) (max : Nat) (db : Database) (decrypt : Bool)
    (plan : SelectPlan) : Except Str (List Joined) := do
  let t ← db.table plan.table
  validateOrder t.schema plan
  validateEncryptedJoins db t.schema plan
  ensureCandidateCount max t.rows.length
  let rows ← runJoins max db decrypt (neededRows plan) plan.joins
    (t.rows.map fun p => baseJoined plan t.schema decrypt p.2)
  .ok (rows.filter fun r => joinedRowMatches ext r.cells plan.conditions)

end Lux
