import Lux.GrantCompare
import Lux.WriteScope

/-!
# The check of an update

`check_update_set` looks at the values an update sets and nothing else: it passes if some clause
of the grant takes every set value in one of its columns. A row may be in scope through another
clause than the one that passed the check, and the values are compared as submitted and not as
stored, so a row can leave the grant. Where the check and the filter decide the conditions on the
set columns alike, `update_stays_iff` says exactly when a changed row stays: some one clause passes
the check and has its conditions on the other columns met by the row. That is so for every row if
every clause passes the check, as with a grant of one clause.
-/

namespace Lux

open StdText KeyedList EnforcedCondition

/-! ### What a condition looks at -/

/-- The column whose value a condition on a field reads: the root of a path into a JSON column,
else the name without its qualifier. -/
def conditionColumn (s : Schema) (field : Str) : Str :=
  match (splitOnce '.' field).filter (fun p => s.isJson p.1) with
  | some (root, _) => root
  | none => bareCol field

variable {row row' : Row}

/-- A condition depends on a row through one column. -/
theorem rowMatchesCondition_congr (ext : Externals) (s : Schema) {c : Condition}
    (h : row.get (conditionColumn s c.field) = row'.get (conditionColumn s c.field)) :
    rowMatchesCondition ext s row c = rowMatchesCondition ext s row' c := by
  rw [conditionColumn] at h
  rw [rowMatchesCondition, rowMatchesCondition]
  cases hpath : (splitOnce '.' c.field).filter (fun p => s.isJson p.1) with
  | some p => rw [hpath] at h; simp only at h ⊢; rw [h]
  | none => rw [hpath] at h; simp only at h ⊢; rw [h]

theorem EnforcedCondition.holds_congr (ext : Externals) (s : Schema) {c : EnforcedCondition}
    (h : row.get (conditionColumn s c.column) = row'.get (conditionColumn s c.column)) :
    c.holds ext s row = c.holds ext s row' := by
  cases c with
  | cmp column op value =>
    simp only [holds]
    rw [rowMatchesCondition_congr ext s h]
  | inSet column negated values =>
    cases values with
    | nil => rfl
    | cons v vs =>
      simp only [holds]
      rw [rowMatchesCondition_congr ext s h]

/-! ### The row after an update -/

variable {eng : Engine} {fields : BodyFields} {pk : Str} {s : Schema}

section

variable (h : stageTableUpdate eng s fields pk row = .ok row')
include h

/-- The columns of a changed row: those set have the stored form, the others their value. -/
theorem stageTableUpdate_get :
    (∀ name, fields.fields.lookup name = none → row'.get name = row.get name) ∧
      ∀ name v, fields.fields.lookup name = some v →
        ∃ text, encodeSetField eng s (name, v) = .ok text ∧ row'.get name = some text := by
  obtain ⟨_, -, h⟩ := bind_eq_ok.mp h
  obtain ⟨_, -, hset⟩ := bind_eq_ok.mp h
  have hperm : (normalizedFieldValues fields).Perm fields.fields := List.perm_insertionSort _ _
  have hdistinct : ((normalizedFieldValues fields).map Prod.fst).Nodup :=
    (hperm.map Prod.fst).nodup_iff.mpr fields.distinct
  obtain ⟨hother, hlisted⟩ := lookup_setEach hdistinct hset
  refine ⟨?_, ?_⟩
  · intro name hnone
    apply hother
    rw [(hperm.map Prod.fst).mem_iff]
    exact not_mem_keys_of_lookup hnone
  · intro name v hsome
    exact hlisted (name, v) (hperm.mem_iff.mpr (mem_of_lookup hsome))

/-- The set columns are columns of the table. -/
theorem stageTableUpdate_find {name v : Str} (hset : fields.fields.lookup name = some v) :
    ∃ f text, s.find name = some f ∧ storedText eng.ext eng.now f.fieldType v = .ok text ∧
      row'.get name = some text := by
  obtain ⟨text, htext, hget⟩ := (stageTableUpdate_get h).2 name v hset
  rw [encodeSetField] at htext
  cases hfind : s.find name with
  | none => rw [hfind] at htext; cases htext
  | some f => rw [hfind] at htext; exact ⟨f, text, rfl, htext, hget⟩

end

/-- The conditions of a grant on columns that are set are decided alike by the check and the filter,
and none of them is about a path into a JSON column. -/
def SetsAlike (eng : Engine) (s : Schema) (fields : BodyFields) (clauses : List GrantClause) :
    Prop :=
  ∀ conds ∈ clauses, ∀ c ∈ conds, ∀ v,
    fields.fields.lookup (conditionColumn s c.column) = some v →
      conditionColumn s c.column = c.column ∧ c.Alike eng s v

/-- A clause passes the check of the set columns, and its conditions on the others are met. -/
def ClauseStays (ext : Externals) (s : Schema) (fields : BodyFields) (row : Row)
    (conds : GrantClause) : Prop :=
  enforcedSetSatisfies conds fields.fields = true ∧
    ∀ c ∈ conds, fields.fields.lookup c.column = none → c.holds ext s row = true

/-- A column of the table is read by its name. -/
theorem conditionColumn_of_find {name : Str} {f : FieldDef} (hfind : s.find name = some f) :
    conditionColumn s name = name := by
  have hdot := Schema.find_no_dot hfind
  have hdrop : name.dropWhile (· != '.') = [] := by
    rw [List.dropWhile_eq_nil_iff]
    intro d hd
    simpa using fun heq : d = '.' => hdot (heq ▸ hd)
  rw [conditionColumn, splitOnce, hdrop]
  exact afterLast_eq_self hdot

/-- A condition on the row after an update: what the check says of it if its column is set, and what
it was if not. -/
theorem EnforcedCondition.holds_after (h : stageTableUpdate eng s fields pk row = .ok row')
    {c : EnforcedCondition} (halike : ∀ v,
      fields.fields.lookup (conditionColumn s c.column) = some v →
        conditionColumn s c.column = c.column ∧ c.Alike eng s v) :
    c.holds eng.ext s row' = match fields.fields.lookup c.column with
      | none => c.holds eng.ext s row
      | some v => c.accepts v := by
  cases hread : fields.fields.lookup (conditionColumn s c.column) with
  | none =>
    have hcolumn : fields.fields.lookup c.column = none := by
      cases hset : fields.fields.lookup c.column with
      | none => rfl
      | some v =>
        obtain ⟨f, -, hfind, -⟩ := stageTableUpdate_find h hset
        rw [conditionColumn_of_find hfind, hset] at hread
        cases hread
    rw [hcolumn]
    exact holds_congr eng.ext s ((stageTableUpdate_get h).1 _ hread)
  | some v =>
    obtain ⟨hcolumn, ft, u, hback, hin⟩ := halike v hread
    rw [hcolumn] at hread
    rw [hread]
    obtain ⟨f, text, hfind, hstored, hget⟩ := stageTableUpdate_find h hread
    refine holds_eq_accepts hback hin ?_
    cases hback with
    | column hfind' htype hstored' =>
      rw [hfind] at hfind'
      cases hfind'
      rw [← htype, hstored] at hstored'
      cases hstored'
      exact hget
    | implicitKey hnone => rw [hfind] at hnone; cases hnone

/-- **The grant on the row after an update**, where the conditions on set columns are decided
alike. -/
theorem grantHolds_after (h : stageTableUpdate eng s fields pk row = .ok row')
    {clauses : List GrantClause} (halike : SetsAlike eng s fields clauses) :
    grantHolds eng.ext s row' clauses = true ↔
      ∃ conds ∈ clauses, ClauseStays eng.ext s fields row conds := by
  rw [grantHolds, List.any_eq_true]
  refine exists_congr fun conds => and_congr_right fun hconds => ?_
  have hafter : ∀ c ∈ conds, _ := fun c hc => holds_after h (halike conds hconds c hc)
  rw [ClauseStays, enforcedSetSatisfies, List.all_eq_true, List.all_eq_true]
  constructor
  · intro hall
    refine ⟨?_, ?_⟩
    · intro c hc
      have hc' := hall c hc
      rw [hafter c hc] at hc'
      rw [find?_eq_lookup]
      cases hset : fields.fields.lookup c.column with
      | none => rfl
      | some v => rw [hset] at hc'; exact hc'
    · intro c hc hnone
      have hc' := hall c hc
      rw [hafter c hc, hnone] at hc'
      exact hc'
  · rintro ⟨hcheck, hothers⟩ c hc
    rw [hafter c hc]
    cases hset : fields.fields.lookup c.column with
    | none => exact hothers c hc hset
    | some v =>
      have hc' := hcheck c hc
      rw [find?_eq_lookup, hset] at hc'
      exact hc'

/-! ### Updates by a user -/

/-- A row that an update request changes was staged, behind a check that passed. -/
theorem routeStatement_update_staged {auth : WriteAuth} {t t' : Table} {user : Str}
    (h : routeStatement eng auth t (.update fields) (some user) = .ok t')
    (hrow : t.row pk = some row) (hrow' : t'.row pk = some row') (hne : row' ≠ row) :
    enforceTableUpdateCheck eng auth fields = .ok () ∧
      stageTableUpdate eng t.schema fields pk row = .ok row' := by
  obtain ⟨filter, -, h⟩ := bind_eq_ok.mp h
  obtain ⟨_, hcheck, h⟩ := bind_eq_ok.mp h
  obtain ⟨tokens, -, h⟩ := bind_eq_ok.mp h
  obtain ⟨ws, -, h⟩ := bind_eq_ok.mp (refuse_eq_ok h)
  obtain ⟨matched, -, h⟩ := bind_eq_ok.mp h
  obtain ⟨_, -, hchange⟩ := bind_eq_ok.mp h
  refine ⟨hcheck, ?_⟩
  have hmem : pk ∈ matched :=
    Table.mem_of_change hchange hrow (by rw [hrow']; exact fun heq => hne (Option.some.inj heq))
  rw [Table.change] at hchange
  split at hchange
  · cases hchange
  next rows hmap =>
    cases hchange
    obtain ⟨w, hw, hlook⟩ := lookup_mapAt hrow hmap
    rw [if_pos hmem] at hw
    have hsame : some w = some row' := hlook.symm.trans hrow'
    rw [hw, Option.some.inj hsame]

/-- **When an updated row stays in the grant.**  If the conditions on the set columns are decided
alike, a row that a user's update changes does not leave the grant exactly if it was not in it, or
some one clause passes the check and has its conditions on the other columns met by the row. It
never leaves the grant if every clause passes the check. -/
theorem update_stays_iff {eng : Engine} {g : WriteGrant} {t t' : Table} {fields : BodyFields}
    {user : Str}
    (hroute : routeStatement eng (.user (.ok g)) t (.update fields) (some user) = .ok t')
    (halike : SetsAlike eng t.schema fields g.clauses)
    {pk : Str} {row row' : Row} (hrow : t.row pk = some row) (hrow' : t'.row pk = some row')
    (hne : row' ≠ row) :
    ((grantHolds eng.ext t.schema row g.clauses = true →
        grantHolds eng.ext t.schema row' g.clauses = true) ↔
      (grantHolds eng.ext t.schema row g.clauses = true →
        ∃ conds ∈ g.clauses, ClauseStays eng.ext t.schema fields row conds)) ∧
      ((∀ conds ∈ g.clauses, enforcedSetSatisfies conds fields.fields = true) →
        grantHolds eng.ext t.schema row g.clauses = true →
          grantHolds eng.ext t.schema row' g.clauses = true) := by
  obtain ⟨-, hstaged⟩ := routeStatement_update_staged hroute hrow hrow' hne
  have hafter := grantHolds_after hstaged halike
  refine ⟨by rw [hafter], ?_⟩
  intro hevery hbefore
  -- the clause the row was in scope through is the one it stays by
  obtain ⟨conds, hconds, hmet⟩ := List.any_eq_true.mp hbefore
  refine hafter.mpr ⟨conds, hconds, hevery conds hconds, ?_⟩
  intro c hc _
  exact List.all_eq_true.mp hmet c hc

/-- Pages with an owner and a status. -/
def pagesSchema : Schema where
  fields := [{ name := str "id", fieldType := .int, primaryKey := true },
    { name := str "owner", fieldType := .str }, { name := str "status", fieldType := .str }]
  named := by decide
  distinct := by decide

/-- A page of that owner and status. -/
def page (id owner status : String) : Str × Row :=
  (str id, [(str "id", str id), (str "owner", str owner), (str "status", str status)])

/-- Two pages, both public. -/
def pages : Table where
  schema := pagesSchema
  rows := [page "1" "ann" "public", page "2" "bob" "public"]
  keys := by decide

/-- The grant `owner = 'ann' OR status = 'public'`. -/
def annsOrPublic : WriteGrant where
  table := str "pages"
  clauses := [[.cmp (str "owner") .eq (str "ann")], [.cmp (str "status") .eq (str "public")]]
  nonempty := by decide

/-- `status` set to `private`. -/
def setPrivate : BodyFields where
  fields := [(str "status", str "private")]
  distinct := by decide

/-- The table after `status` was set in a page. -/
def pagesWith (first second : Str × Row) (h : ([first, second].map Prod.fst).Nodup) : Table where
  schema := pagesSchema
  rows := [first, second]
  keys := h

/-- The row of a page with its status set. -/
def madePrivate (id owner : String) : Row :=
  [(str "status", str "private"), (str "id", str id), (str "owner", str owner)]

/-- The status is compared as a text. -/
theorem setsAlike_setPrivate :
    SetsAlike (plainEngine pages) pagesSchema setPrivate annsOrPublic.clauses := by
  intro conds hconds c hc v hset
  have hcases : c = .cmp (str "owner") .eq (str "ann") ∨
      c = .cmp (str "status") .eq (str "public") := by
    simp only [annsOrPublic, List.mem_cons, List.not_mem_nil, or_false] at hconds
    rcases hconds with rfl | rfl
    · exact .inl (List.mem_singleton.mp hc)
    · exact .inr (List.mem_singleton.mp hc)
  rcases hcases with rfl | rfl
  · have hnone : setPrivate.fields.lookup (conditionColumn pagesSchema (str "owner")) = none := by
      decide
    exact absurd (hnone.symm.trans hset) nofun
  · have hv : str "private" = v := Option.some.inj hset
    subst hv
    refine ⟨by decide, .str, str "private", .column rfl rfl rfl, rfl, ?_⟩
    intro a b ha
    have hnone : parseF64 (str "private") = none := by decide
    exact absurd (hnone.symm.trans ha) nofun

/-- Ann's own page may become private: it stays in the grant through its owner. -/
theorem update_stays_own_page :
    grantHolds (plainEngine pages).ext pagesSchema (page "1" "ann" "public").2
        annsOrPublic.clauses = true ∧
      grantHolds (plainEngine pages).ext pagesSchema (madePrivate "1" "ann")
        annsOrPublic.clauses = true := by
  have hroute : routeStatement (plainEngine pages) (.user (.ok annsOrPublic)) pages
      (.update setPrivate) (some (str "id = 1")) =
      .ok (pagesWith (str "1", madePrivate "1" "ann") (page "2" "bob" "public") (by decide)) := by
    decide
  have hbefore : pages.row (str "1") = some (page "1" "ann" "public").2 := by decide
  have hafter : (pagesWith (str "1", madePrivate "1" "ann") (page "2" "bob" "public")
      (by decide)).row (str "1") = some (madePrivate "1" "ann") := by decide
  have hcovered : grantHolds (plainEngine pages).ext pagesSchema (page "1" "ann" "public").2
      annsOrPublic.clauses = true := by
    decide
  refine ⟨hcovered, (update_stays_iff hroute setsAlike_setPrivate hbefore hafter
    (by decide)).1.mpr ?_ hcovered⟩
  intro _
  refine ⟨[.cmp (str "owner") .eq (str "ann")], List.mem_cons_self, by decide, ?_⟩
  intro c hc _
  cases List.mem_singleton.mp hc
  decide

/-- **An update moves a row out of the grant.**  Bob's public page is in scope by its status; the
check passes by the clause on the owner, which the update does not set. -/
theorem update_leaves_grant :
    routeStatement (plainEngine pages) (.user (.ok annsOrPublic)) pages (.update setPrivate)
        (some (str "id = 2")) =
      .ok (pagesWith (page "1" "ann" "public") (str "2", madePrivate "2" "bob") (by decide)) ∧
    grantHolds (plainEngine pages).ext pagesSchema (page "2" "bob" "public").2
      annsOrPublic.clauses = true ∧
    grantHolds (plainEngine pages).ext pagesSchema (madePrivate "2" "bob")
      annsOrPublic.clauses = false := by
  refine ⟨?_, ?_, ?_⟩ <;> decide

end Lux
