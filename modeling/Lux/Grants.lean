import Lux.TableFilter
import Lux.WhereCompose

/-!
# Grants

A grant resolved for a principal is a list of alternative clauses, each a conjunction of
comparisons and memberships. It is enforced in three ways: as a check of a row about to be
inserted (`enforced_row_satisfies`), as a check of the values an update sets
(`enforced_set_satisfies`), and as filter text put behind the caller's own filter
(`render_enforced_clauses`).

What a grant means for a stored row is stated once, by `grantHolds`: some clause has each of its
conditions met by the row, compared the way the query engine compares the column.
-/

namespace Lux

open StdText

/-! ### Enforced conditions -/

/-- The comparison operators of a grant. -/
inductive GrantOp where
  | eq | ne | gt | lt | ge | le
deriving DecidableEq

/-- The operator as it is written. -/
def GrantOp.text : GrantOp → Str
  | .eq => ['=']
  | .ne => ['!', '=']
  | .gt => ['>']
  | .lt => ['<']
  | .ge => ['>', '=']
  | .le => ['<', '=']

/-- The operator in a filter. -/
def GrantOp.cmpOp : GrantOp → CmpOp
  | .eq => .eq
  | .ne => .ne
  | .gt => .gt
  | .lt => .lt
  | .ge => .ge
  | .le => .le

/-- A grant condition with the principal's attributes and membership sets filled in. -/
inductive EnforcedCondition where
  | cmp (column : Str) (op : GrantOp) (value : Str)
  | inSet (column : Str) (negated : Bool) (values : List Str)
deriving DecidableEq

/-- The column a condition is about. -/
def EnforcedCondition.column : EnforcedCondition → Str
  | .cmp column _ _ => column
  | .inSet column _ _ => column

/-- A clause of a grant: all its conditions are to hold. -/
abbrev GrantClause := List EnforcedCondition

/-- `grants::cmp`: as numbers if both sides read as floats, else as texts. -/
def grantCmp (actual : Str) (op : GrantOp) (target : Str) : Bool :=
  match parseF64 actual, parseF64 target with
  | some a, some t => floatOpHolds op.cmpOp a t
  | _, _ => opHolds op.cmpOp (compareStr actual target)

/-- `grants::in_set`. -/
def inSet (value : Str) (negated : Bool) (values : List Str) : Bool :=
  values.any (· == value) != negated

/-- A condition on a submitted value. -/
def EnforcedCondition.accepts (value : Str) : EnforcedCondition → Bool
  | .cmp _ op target => grantCmp value op target
  | .inSet _ negated values => Lux.inSet value negated values

/-- `enforced_set_satisfies`: only the columns that are set are looked at. -/
def enforcedSetSatisfies (conds : GrantClause) (setFields : List (Str × Str)) : Bool :=
  conds.all fun c =>
    match setFields.find? (·.1 == c.column) with
    | none => true
    | some (_, value) => c.accepts value

/-- `check_update_set`. -/
def checkUpdateSet (table : Str) (clauses : List GrantClause) (setFields : List (Str × Str)) :
    Except Str Unit :=
  if clauses.any (enforcedSetSatisfies · setFields) then .ok ()
  else .error (str "update would move a row outside the write grant on '" ++ table ++ str "'")

/-! ### Filter text -/

/-- `qualified_grant_column`. -/
def qualifiedGrantColumn (column : Str) : Option Str → Str
  | some qualifier => qualifier ++ '.' :: column
  | none => column

/-- A condition that no row meets. -/
def contradiction (column : Str) : Str :=
  column ++ str " IS NULL AND " ++ column ++ str " IS NOT NULL"

/-- The text of one condition; an empty negated set excludes nothing and has none. -/
def renderCondition (qualifier : Option Str) : EnforcedCondition → Option Str
  | .cmp column op value =>
    some (qualifiedGrantColumn column qualifier ++ ' ' :: op.text ++ ' ' :: quoteWhereValue value)
  | .inSet column negated [] =>
    if negated then none else some (contradiction (qualifiedGrantColumn column qualifier))
  | .inSet column negated (v :: vs) =>
    some (qualifiedGrantColumn column qualifier ++ ' ' ::
      (if negated then str "NOT IN" else str "IN") ++ str " ( " ++
      join [' '] ((v :: vs).map quoteWhereValue) ++ str " )")

/-- `render_enforced_clause`. -/
def renderEnforcedClause (conds : GrantClause) (qualifier : Option Str) : Str :=
  join (str " AND ") (conds.filterMap (renderCondition qualifier))

/-- One more value of a set. -/
def addValue (values : List Str) (v : Str) : List Str :=
  if values.any (· == v) then values else values ++ [v]

/-- One round of `collapse_same_column_or_clauses`: the column met so far and its values. -/
def collapseStep (acc : Option Str × List Str) : GrantClause → Option (Option Str × List Str)
  | [.cmp column .eq value] =>
    if acc.1.any (· != column) then none else some (some column, addValue acc.2 value)
  | [.inSet column false values] =>
    if acc.1.any (· != column) then none else some (some column, values.foldl addValue acc.2)
  | _ => none

/-- `collapse_same_column_or_clauses`: alternatives that all ask one column for equality are one
membership. -/
def collapseSameColumnOrClauses (clauses : List GrantClause) : Option EnforcedCondition := do
  let (column, values) ← clauses.foldlM collapseStep (none, [])
  let column ← column
  some (.inSet column false values)

/-- A membership in the empty set. -/
def isNever : EnforcedCondition → Bool
  | .inSet _ false [] => true
  | _ => false

/-- The branches of an `OR` filter, one for each alternative that some row may meet; `none` when
an alternative asks for nothing. -/
def renderBranches (qualifier : Option Str) : List GrantClause → Except Str (Option (List Str))
  | [] => .ok (some [])
  | clause :: rest =>
    if clause.any isNever then renderBranches qualifier rest
    else match clause.filterMap (renderCondition qualifier) with
      | [] => .ok none
      | [part] => do
        let branches ← renderBranches qualifier rest
        .ok (branches.map (part :: ·))
      | _ => .error (str "OR grants with multi-condition branches are not supported yet")

/-- `render_enforced_or_clauses`. -/
def renderEnforcedOrClauses (clauses : List GrantClause) (qualifier : Option Str) :
    Except Str Str :=
  match collapseSameColumnOrClauses clauses with
  | some cond => .ok (renderEnforcedClause [cond] qualifier)
  | none => do
    match ← renderBranches qualifier clauses with
    | none => .ok []
    | some [] =>
      match clauses.flatten with
      | [] => .ok []
      | first :: _ => .ok (contradiction (qualifiedGrantColumn first.column qualifier))
    | some branches => .ok (join (str " OR ") branches)

/-- `render_enforced_clauses`. -/
def renderEnforcedClauses (clauses : List GrantClause) (qualifier : Option Str) : Except Str Str :=
  match clauses with
  | [clause] => .ok (renderEnforcedClause clause qualifier)
  | _ => renderEnforcedOrClauses clauses qualifier

/-! ### What a grant means -/

/-- The table has the field: a column, a path into a JSON column, or the implicit `id`. -/
def Schema.knows (s : Schema) (field : Str) : Bool :=
  (s.implicitPk && field == str "id") || isJsonPathField field s || (s.find field).isSome

/-- The filter condition that an enforced condition stands for. -/
def EnforcedCondition.condition (qualifier : Option Str) : EnforcedCondition → Condition
  | .cmp column op value => .single (qualifiedGrantColumn column qualifier) op.cmpOp value
  | .inSet column negated values =>
    .list (qualifiedGrantColumn column qualifier) (if negated then .notIn else .inList) values

/-- A row meets a condition. Nothing is a member of the empty set and everything is outside of
it; otherwise the table must have the column and the engine's comparison must hold. -/
def EnforcedCondition.holds (ext : Externals) (s : Schema) (row : Row) :
    EnforcedCondition → Bool
  | .inSet _ negated [] => negated
  | c => s.knows c.column && rowMatchesCondition ext s row (c.condition none)

/-- **A row is covered by a grant**: it meets every condition of some clause. -/
def grantHolds (ext : Externals) (s : Schema) (row : Row) (clauses : List GrantClause) : Bool :=
  clauses.any fun conds => conds.all (EnforcedCondition.holds ext s row)

end Lux
