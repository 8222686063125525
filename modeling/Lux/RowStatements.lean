import Lux.HttpFilter

/-!
# Update and delete requests

The HTTP routes that change or remove the rows a filter names. A token user's request is scoped
by the grant: the grant's filter text is put behind the caller's (`combine_where`), the result is
tokenized and parsed, and the statement acts on the rows that meet it. An update is checked
against the grant beforehand by the values it sets.

What the planner proposes as candidate rows, and what unique constraints, foreign keys and
sequences have to say about a change, is left open: the results hold for every such behaviour.
-/

namespace Lux

open StdText KeyedList

/-! ### The parties -/

/-- A caller's resolved write grant on one table: a first clause and further alternatives. -/
structure WriteGrant where
  table : Str
  clauses : List GrantClause
  nonempty : clauses ≠ []

/-- The engine around a statement. -/
structure Engine where
  ext : Externals
  /-- The clock, in epoch milliseconds. -/
  now : Int
  /-- End-user authentication is switched on. -/
  authEnabled : Bool
  /-- The candidate rows of a filter, by primary key. -/
  candidates : List WhereClause → List Str
  /-- Unique constraints, foreign keys and sequences, on the values set for a row. -/
  constraints : Str → List (Str × Str) → Except Str Unit
  /-- References that forbid the removal of a row. -/
  references : Str → Except Str Unit

/-- The columns a request's body gives, with the texts of their values; the members of a JSON
object have different names. -/
structure BodyFields where
  fields : List (Str × Str)
  distinct : (fields.map Prod.fst).Nodup

/-! ### Enforcement -/

/-- `write_filter`. -/
def writeFilter (grant : Except Str WriteGrant) : Except Str Str := do
  let g ← grant
  renderEnforcedClauses g.clauses none

/-- What the routes know of a token user: the outcome of resolving the write grant. -/
abbrev WriteAuth := HttpAuthContext (Except Str WriteGrant)

/-- `enforce_table_write_where`: the filter a statement is to be narrowed by, if any. -/
def enforceTableWriteWhere (eng : Engine) (auth : WriteAuth) : Except HttpError (Option Str) :=
  enforce eng.authEnabled auth none fun grant => refuse 403 ((writeFilter grant).map some)

/-- `enforce_table_update_check`. -/
def enforceTableUpdateCheck (eng : Engine) (auth : WriteAuth) (fields : BodyFields) :
    Except HttpError Unit :=
  enforce eng.authEnabled auth () fun grant => refuse 403 (do
    let g ← grant
    checkUpdateSet g.table g.clauses fields.fields)

/-! ### Statements -/

/-- `normalized_field_values`: the columns in the order of their names. -/
def normalizedFieldValues (fields : BodyFields) : List (Str × Str) :=
  fields.fields.insertionSort fun a b => a.1 ≤ b.1

/-- The check of one set column: it exists, it is no key, and it takes the value. -/
def checkSetField (eng : Engine) (s : Schema) (set : Str × Str) : Except Str Unit :=
  match s.find set.1 with
  | none => .error (str "ERR unknown field '" ++ set.1 ++ str "'")
  | some f =>
    if f.primaryKey ∨ (set.1 = str "id" ∧ s.implicitPk = true) then
      .error (str "ERR primary key column '" ++ set.1 ++ str "' cannot be updated")
    else validateValue eng.ext f set.2

/-- The text a column gives back for a value that is set. -/
def encodeSetField (eng : Engine) (s : Schema) (set : Str × Str) : Except Str Str :=
  match s.find set.1 with
  | none => .error (str "ERR unknown field '" ++ set.1 ++ str "'")
  | some f => storedText eng.ext eng.now f.fieldType set.2

/-- `stage_table_update`: the row as it is stored afterwards. -/
def stageTableUpdate (eng : Engine) (s : Schema) (fields : BodyFields) (pk : Str) (row : Row) :
    Except Str Row := do
  (normalizedFieldValues fields).forM (checkSetField eng s)
  eng.constraints pk (normalizedFieldValues fields)
  KeyedList.setEach (encodeSetField eng s) (normalizedFieldValues fields) row

/-- Every column that is set exists. -/
def checkSetColumns (s : Schema) (fields : BodyFields) : Except Str Unit :=
  (normalizedFieldValues fields).forM fun set =>
    if (s.find set.1).isSome then .ok ()
    else .error (str "ERR unknown field '" ++ set.1 ++ str "'")

/-- The table after a change to the rows with certain keys. -/
def Table.change (t : Table) (matched : List Str) (f : Str → Row → Except Str Row) :
    Except Str Table :=
  match h : KeyedList.mapAt matched f t.rows with
  | .error e => .error e
  | .ok rows => .ok ⟨t.schema, rows, by rw [mapAt_keys h]; exact t.keys⟩

/-- The table without the rows with certain keys. -/
def Table.remove (t : Table) (matched : List Str) : Table where
  schema := t.schema
  rows := t.rows.filter fun r => r.1 ∉ matched
  keys := t.keys.sublist (List.filter_sublist.map _)

/-- `table_update_where_rows`. -/
def tableUpdateWhere (eng : Engine) (t : Table) (fields : BodyFields) (whereArgs : List Str) :
    Except Str Table := do
  let ws ← parseWhereConditions whereArgs
  let matched ← scanMatchingPks eng.ext t (eng.candidates ws) ws
  checkSetColumns t.schema fields
  t.change matched (stageTableUpdate eng t.schema fields)

/-- `table_delete_where_rows`, without what declared cascades do to other rows. -/
def tableDeleteWhere (eng : Engine) (t : Table) (whereArgs : List Str) : Except Str Table := do
  let ws ← parseWhereConditions whereArgs
  let matched ← scanMatchingPks eng.ext t (eng.candidates ws) ws
  matched.forM eng.references
  .ok (t.remove matched)

/-- What a request asks for. -/
inductive Statement where
  | update (fields : BodyFields)
  | delete
  /-- A delete request with `drop=true`. -/
  | drop

/-- The filter tokens of a request: the grant's filter behind the caller's. -/
def effectiveTokens (user : Str) (filter : Option Str) : Except HttpError (List Str) :=
  refuse 400 (parseHttpWhereTokens (combineWhere user (filter.getD [])))

/-- `route_table_update` and `route_table_delete`. -/
def routeStatement (eng : Engine) (auth : WriteAuth) (t : Table) (stmt : Statement)
    (whereClause : Option Str) : Except HttpError Table :=
  match stmt, whereClause with
  | .drop, _ => do
    requireProjectAccess eng.authEnabled auth
    .ok ⟨t.schema, [], List.nodup_nil⟩
  | .update _, none => .error ⟨400, str "where parameter required for updates"⟩
  | .delete, none =>
    .error ⟨400, str "where parameter required for delete (use drop=true to drop table)"⟩
  | .update fields, some user => do
    let filter ← enforceTableWriteWhere eng auth
    enforceTableUpdateCheck eng auth fields
    let tokens ← effectiveTokens user filter
    refuse 400 (tableUpdateWhere eng t fields tokens)
  | .delete, some user => do
    let filter ← enforceTableWriteWhere eng auth
    let tokens ← effectiveTokens user filter
    refuse 400 (tableDeleteWhere eng t tokens)

/-- The conditions that a token user's request is narrowed to: the caller's text with the grant's
behind it, read and checked against the table, or the reason why the request is refused. -/
def narrowedFilter (s : Schema) (clauses : List GrantClause) (user : Str) :
    Except Str (List WhereClause) := do
  let text ← renderEnforcedClauses clauses none
  let tokens ← parseHttpWhereTokens (combineWhere user text)
  let ws ← parseWhereConditions tokens
  validateFilter s ws
  .ok ws

theorem narrowedFilter_eq_ok {s : Schema} {clauses : List GrantClause} {user : Str}
    {ws : List WhereClause} : narrowedFilter s clauses user = .ok ws ↔
      ∃ text tokens, renderEnforcedClauses clauses none = .ok text ∧
        parseHttpWhereTokens (combineWhere user text) = .ok tokens ∧
        parseWhereConditions tokens = .ok ws ∧ validateFilter s ws = .ok () := by
  constructor
  · intro h
    obtain ⟨text, htext, h⟩ := bind_eq_ok.mp h
    obtain ⟨tokens, htokens, h⟩ := bind_eq_ok.mp h
    obtain ⟨ws', hws, h⟩ := bind_eq_ok.mp h
    obtain ⟨_, hvalid, h⟩ := bind_eq_ok.mp h
    cases h
    exact ⟨text, tokens, htext, htokens, hws, hvalid⟩
  · rintro ⟨text, tokens, htext, htokens, hws, hvalid⟩
    refine bind_eq_ok.mpr ⟨text, htext, bind_eq_ok.mpr ⟨tokens, htokens, ?_⟩⟩
    exact bind_eq_ok.mpr ⟨ws, hws, bind_eq_ok.mpr ⟨(), hvalid, rfl⟩⟩

/-! ### What a statement touches -/

/-- Rows that are changed or removed are among those with matched keys. -/
theorem Table.mem_of_change {t t' : Table} {matched : List Str} {f : Str → Row → Except Str Row}
    (h : t.change matched f = .ok t') {pk : Str} {row : Row} (hrow : t.row pk = some row)
    (hne : t'.row pk ≠ some row) : pk ∈ matched := by
  rw [Table.change] at h
  split at h
  · cases h
  next rows hmap =>
    cases h
    obtain ⟨w, hw, hlook⟩ := lookup_mapAt hrow hmap
    by_contra hpk
    rw [if_neg hpk] at hw
    cases hw
    exact hne hlook

theorem Table.mem_of_remove {t : Table} {matched : List Str} {pk : Str} {row : Row}
    (hrow : t.row pk = some row) (hne : (t.remove matched).row pk ≠ some row) :
    pk ∈ matched := by
  by_contra hpk
  refine hne ?_
  have hlook := lookup_filter_key (fun k => decide (k ∉ matched)) t.rows pk
  rw [if_pos (decide_eq_true hpk)] at hlook
  exact hlook.trans hrow

/-- A user's request goes through only with a grant whose filter renders. -/
theorem enforceTableWriteWhere_user {eng : Engine} (hauth : eng.authEnabled = true)
    {g : WriteGrant} {filter : Option Str}
    (h : enforceTableWriteWhere eng (.user (.ok g)) = .ok filter) :
    ∃ text, renderEnforcedClauses g.clauses none = .ok text ∧ filter = some text := by
  rw [enforceTableWriteWhere, hauth] at h
  obtain ⟨text, htext, hfilter⟩ := map_eq_ok.mp (refuse_eq_ok h)
  exact ⟨text, htext, hfilter.symm⟩

/-- **What a user's request can touch.**  A row that is changed or removed meets the conditions the
request is narrowed to. -/
theorem routeStatement_touches {eng : Engine} (hauth : eng.authEnabled = true) {g : WriteGrant}
    {t t' : Table} {stmt : Statement} {user : Str}
    (h : routeStatement eng (.user (.ok g)) t stmt (some user) = .ok t')
    {pk : Str} {row : Row} (hrow : t.row pk = some row) (hne : t'.row pk ≠ some row) :
    ∃ ws, narrowedFilter t.schema g.clauses user = .ok ws ∧
      rowMatches eng.ext t.schema row ws = true := by
  cases stmt with
  | drop =>
    rw [routeStatement, requireProjectAccess, hauth] at h
    cases h
  | update fields =>
    obtain ⟨filter, hfilter, h⟩ := bind_eq_ok.mp h
    obtain ⟨_, _, h⟩ := bind_eq_ok.mp h
    obtain ⟨tokens, htokens, h⟩ := bind_eq_ok.mp h
    obtain ⟨ws, hws, h⟩ := bind_eq_ok.mp (refuse_eq_ok h)
    obtain ⟨matched, hmatched, h⟩ := bind_eq_ok.mp h
    obtain ⟨_, _, hchange⟩ := bind_eq_ok.mp h
    obtain ⟨text, htext, rfl⟩ := enforceTableWriteWhere_user hauth hfilter
    obtain ⟨hvalid, hmeets⟩ := scanMatchingPks_eq_ok hmatched
    exact ⟨ws, narrowedFilter_eq_ok.mpr ⟨text, tokens, htext, refuse_eq_ok htokens, hws, hvalid⟩,
      hmeets pk (Table.mem_of_change hchange hrow hne) row hrow⟩
  | delete =>
    obtain ⟨filter, hfilter, h⟩ := bind_eq_ok.mp h
    obtain ⟨tokens, htokens, h⟩ := bind_eq_ok.mp h
    obtain ⟨ws, hws, h⟩ := bind_eq_ok.mp (refuse_eq_ok h)
    obtain ⟨matched, hmatched, h⟩ := bind_eq_ok.mp h
    obtain ⟨_, _, hremove⟩ := bind_eq_ok.mp h
    cases hremove
    obtain ⟨text, htext, rfl⟩ := enforceTableWriteWhere_user hauth hfilter
    obtain ⟨hvalid, hmeets⟩ := scanMatchingPks_eq_ok hmatched
    exact ⟨ws, narrowedFilter_eq_ok.mpr ⟨text, tokens, htext, refuse_eq_ok htokens, hws, hvalid⟩,
      hmeets pk (Table.mem_of_remove hrow hne) row hrow⟩

theorem nodup_soleKey (row : Row) : ([(str "1", row)].map Prod.fst).Nodup :=
  List.nodup_singleton _

/-- A table with one row. -/
def soleRow (s : Schema) (row : Row) : Table := ⟨s, [(str "1", row)], nodup_soleKey row⟩

/-- An engine that scans every row and knows of no constraints. -/
def scanningEngine (ext : Externals) (t : Table) : Engine where
  ext := ext
  now := 0
  authEnabled := true
  candidates := fun _ => t.rows.map Prod.fst
  constraints := fun _ _ => .ok ()
  references := fun _ => .ok ()

/-- A row that meets the conditions a request is narrowed to is removed by a delete. -/
theorem routeStatement_soleRow {ext : Externals} {s : Schema} {g : WriteGrant} {user : Str}
    {ws : List WhereClause} (hread : narrowedFilter s g.clauses user = .ok ws) {row : Row}
    (hmeets : rowMatches ext s row ws = true) :
    routeStatement (scanningEngine ext (soleRow s row)) (.user (.ok g)) (soleRow s row) .delete
      (some user) = .ok ((soleRow s row).remove [str "1"]) := by
  obtain ⟨text, tokens, htext, htokens, hws, hvalid⟩ := narrowedFilter_eq_ok.mp hread
  have hfilter : enforceTableWriteWhere (scanningEngine ext (soleRow s row)) (.user (.ok g)) =
      .ok (some text) := by
    change refuse 403 ((renderEnforcedClauses g.clauses none).map some) = _
    rw [htext]
    rfl
  have htoken : effectiveTokens user (some text) = .ok tokens := congrArg (refuse 400) htokens
  have hscan : scanMatchingPks ext (soleRow s row) [str "1"] ws = .ok [str "1"] := by
    refine bind_eq_ok.mpr ⟨(), hvalid, ?_⟩
    refine congrArg Except.ok (List.filter_cons_of_pos ?_)
    exact hmeets
  have hdelete : tableDeleteWhere (scanningEngine ext (soleRow s row)) (soleRow s row) tokens =
      .ok ((soleRow s row).remove [str "1"]) :=
    bind_eq_ok.mpr ⟨ws, hws, bind_eq_ok.mpr ⟨_, hscan, rfl⟩⟩
  refine bind_eq_ok.mpr ⟨_, hfilter, bind_eq_ok.mpr ⟨tokens, htoken, ?_⟩⟩
  rw [hdelete]
  rfl

end Lux
