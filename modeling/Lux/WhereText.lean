import Lux.StdText
import Lux.TokenStream

/-!
# Filter text: tokens and conditions

The `where` text of a query is cut into tokens (`tokenize_where`), and the tokens are read as a
list of conditions (`parse_where_conditions`): comparisons, `IN` lists, `IS` predicates and
`CONTAINS`, joined by `OR` within a group and by an optional `AND` between groups. Update and
delete statements, grant predicates and the `WHERE` clause of a query share the two.
-/

namespace Lux

open StdText TokenStream

/-! ### Tokens -/

/-- What the tokenizer carries along the text: the finished tokens, the token being built (its
`building` flag and `current` buffer in one), and whether a quote is open. -/
structure Scan where
  tokens : List Str
  current : Option Str
  inQuote : Bool
deriving DecidableEq

namespace Scan

/-- Between two tokens, outside of quotes. -/
def ready (tokens : List Str) : Scan := ⟨tokens, none, false⟩

/-- Close the token that is being built, if any. -/
def flush (s : Scan) : Scan :=
  match s.current with
  | some token => ⟨s.tokens ++ [token], none, s.inQuote⟩
  | none => s

/-- More characters of the token that is being built. -/
def push (s : Scan) (cs : Str) : Scan := { s with current := some (s.current.getD [] ++ cs) }

/-- A whole token, after whatever was being built. -/
def emit (s : Scan) (token : Str) : Scan :=
  { s.flush with tokens := s.flush.tokens ++ [token] }

end Scan

/-- One round of the loop of `tokenize_where` on a character and the one after it: the new state,
and whether the second character has been taken too. -/
def scanStep (s : Scan) (c : Char) (next : Option Char) : Except Str (Scan × Bool) :=
  if s.inQuote then
    if c = '\\' then
      match next with
      | none => .error (str "unterminated escape in where value")
      | some d =>
        if d = '\'' ∨ d = '\\' then .ok (s.push [d], true) else .ok (s.push ['\\', d], true)
    else if c = '\'' then .ok ({ s with inQuote := false }, false)
    else .ok (s.push [c], false)
  else if c = '\'' ∧ s.current = none then .ok (⟨s.tokens, some [], true⟩, false)
  else if c = '=' ∨ c = '<' ∨ c = '>' ∨ (c = '!' ∧ next = some '=') then
    -- `!=`, `<=` and `>=` are one token; a second `=` is its own
    if next = some '=' ∧ c ≠ '=' then .ok (s.emit [c, '='], true) else .ok (s.emit [c], false)
  else if isWhitespace c then .ok (s.flush, false)
  else .ok (s.push [c], false)

/-- The loop of `tokenize_where`. -/
def scanWhere (s : Scan) : Str → Except Str Scan
  | [] => .ok s
  | c :: rest =>
    match scanStep s c rest.head?, rest with
    | .error e, _ => .error e
    | .ok (s', true), _ :: more => scanWhere s' more
    | .ok (s', _), rest => scanWhere s' rest

/-- `tokenize_where`: white space separates tokens, a single-quoted span is one token, and the
comparison operators are tokens of their own. -/
def tokenizeWhere (text : Str) : Except Str (List Str) := do
  let s ← scanWhere (Scan.ready []) text
  if s.inQuote then .error (str "unterminated quote in where value")
  else .ok s.flush.tokens

/-- `quote_where_value`: a value as one quoted token. -/
def quoteWhereValue (value : Str) : Str :=
  '\'' :: (replaceChar '\'' ['\\', '\''] (replaceChar '\\' ['\\', '\\'] value)) ++ ['\'']

/-! ### Conditions -/

/-- The operators of a condition. -/
inductive CmpOp where
  | eq | ne | gt | lt | ge | le | like | iLike
  | inList | notIn | isValid | isNotValid | isNull | isNotNull | contains
deriving DecidableEq

/-- One condition: a single operand for comparisons, a list for `IN` and `NOT IN`. -/
structure Condition where
  field : Str
  op : CmpOp
  value : Str
  values : List Str
deriving DecidableEq

/-- A condition with a single operand, or with none. -/
def Condition.single (field : Str) (op : CmpOp) (value : Str) : Condition := ⟨field, op, value, []⟩

/-- A condition with a list of operands. -/
def Condition.list (field : Str) (op : CmpOp) (values : List Str) : Condition :=
  ⟨field, op, [], values⟩

/-- One conjunct of a filter: a condition, or a group of alternatives. -/
inductive WhereClause where
  | one (c : Condition)
  | orGroup (cs : List Condition)
deriving DecidableEq

/-- The alternatives of a conjunct. -/
def WhereClause.alternatives : WhereClause → List Condition
  | .one c => [c]
  | .orGroup cs => cs

/-- `parse_cmp_op`. -/
def parseCmpOp (s : Str) : Except Str CmpOp :=
  if s = str "=" then .ok .eq
  else if s = str "!=" then .ok .ne
  else if s = str ">" then .ok .gt
  else if s = str "<" then .ok .lt
  else if s = str ">=" then .ok .ge
  else if s = str "<=" then .ok .le
  else if eqIgnoreAsciiCase s (str "LIKE") then .ok .like
  else if eqIgnoreAsciiCase s (str "ILIKE") then .ok .iLike
  else .error (str "ERR unknown operator '" ++ s ++ str "'")

/-- The error for a value list that runs into the end of the text. -/
def unterminatedInList : Str := str "ERR unterminated IN list: missing ')'"

/-- `parse_in_list`: the values between `(` and the next `)`. -/
def parseInList : Parser Str Str (List Str)
  | [] => .error (str "ERR IN operator requires a parenthesized list, e.g. IN ( a b c )")
  | t :: rest =>
    if t ≠ str "(" then
      .error (str "ERR IN operator requires a parenthesized list, e.g. IN ( a b c )")
    else if rest.head?.any (eqIgnoreAsciiCase · (str "SELECT")) then
      .error (str "ERR subqueries (IN ( SELECT ... )) are only supported in grant predicates, not in a query WHERE")
    else match rest.dropWhile (· != str ")") with
      | [] => .error unterminatedInList
      | _ :: after =>
        if rest.takeWhile (· != str ")") = [] then
          .error (str "ERR IN list must contain at least one value")
        else .ok (rest.takeWhile (· != str ")"), after)

/-- The predicates behind `IS`. -/
def parseIs (field : Str) : Parser Str Str Condition
  | [] => .error (str "ERR expected 'VALID', 'NOT VALID', 'NULL' or 'NOT NULL' after 'IS'")
  | t :: rest =>
    if eqIgnoreAsciiCase t (str "VALID") then .ok (.single field .isValid [], rest)
    else if eqIgnoreAsciiCase t (str "NULL") then .ok (.single field .isNull [], rest)
    else if eqIgnoreAsciiCase t (str "NOT") ∧
        rest.head?.any (eqIgnoreAsciiCase · (str "VALID")) then
      .ok (.single field .isNotValid [], rest.tail)
    else if eqIgnoreAsciiCase t (str "NOT") ∧
        rest.head?.any (eqIgnoreAsciiCase · (str "NULL")) then
      .ok (.single field .isNotNull [], rest.tail)
    else .error (str "ERR expected 'VALID', 'NOT VALID', 'NULL' or 'NOT NULL' after 'IS'")

/-- `parse_where_condition`. -/
def parseWhereCondition : Parser Str Str Condition
  | [] => .error (str "ERR incomplete WHERE clause: expected field")
  | [field] =>
    .error (str "ERR incomplete WHERE clause: missing operator after '" ++ field ++ str "'")
  | field :: opStr :: rest =>
    if toUppercase opStr = str "IN" then do
      let (values, after) ← parseInList rest
      .ok (.list field .inList values, after)
    else if toUppercase opStr = str "NOT" then
      match rest with
      | t :: more =>
        if eqIgnoreAsciiCase t (str "IN") then do
          let (values, after) ← parseInList more
          .ok (.list field .notIn values, after)
        else .error (str "ERR expected 'IN' after 'NOT' in WHERE clause")
      | [] => .error (str "ERR expected 'IN' after 'NOT' in WHERE clause")
    else if toUppercase opStr = str "IS" then parseIs field rest
    else if toUppercase opStr = str "CONTAINS" then
      match rest with
      | value :: more => .ok (.single field .contains value, more)
      | [] => .error (str "ERR missing value after CONTAINS")
    else match rest with
      | value :: more => do
        -- the operand is taken before the operator is looked at
        let op ← parseCmpOp opStr
        .ok (.single field op value, more)
      | [] =>
        .error (str "ERR incomplete WHERE clause: missing value after '" ++ opStr ++ str "'")

/-- The token that joins alternatives. -/
def isOr (t : Str) : Bool := eqIgnoreAsciiCase t (str "OR")

/-- The token between conjuncts. -/
def isAnd (t : Str) : Bool := eqIgnoreAsciiCase t (str "AND")

/-- A group of alternatives; a single one stands for itself. -/
def mkGroup : List Condition → WhereClause
  | [c] => .one c
  | cs => .orGroup cs

/-- `parse_where_or_group`. -/
def parseWhereOrGroup : Parser Str Str WhereClause := fun args => do
  let (cs, rest) ← sepBy1 isOr parseWhereCondition args
  .ok (mkGroup cs, rest)

/-- Step over one `AND`, if it comes next. -/
def skipAnd : List Str → List Str
  | [] => []
  | t :: rest => if isAnd t then rest else t :: rest

/-- One round of the loop of `parse_where_conditions`: a group, and an `AND` if one follows. -/
def parseConjunct : Parser Str Str WhereClause := fun args => do
  let (group, rest) ← parseWhereOrGroup args
  .ok (group, skipAnd rest)

/-- `parse_where_conditions`. The `AND` between two conjuncts may be left out. -/
def parseWhereConditions (args : List Str) : Except Str (List WhereClause) :=
  repeatAll parseConjunct args

end Lux
