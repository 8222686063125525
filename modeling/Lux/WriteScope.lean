import Lux.RowStatements

/-!
# Row-level write security

A token user's update or delete should touch only rows the write grant covers, whatever filter
text the request carries. The grant's text is put behind the caller's before either has been
read, so the caller's text decides how the grant's is read. If it is complete on its own (every
quote it opens is closed, and so is every value list), the combination is read as the caller's
conditions followed by the grant's, and every row touched is covered. A text that ends inside
a quoted value takes the grant's text into that value.

The requests on a table are contained exactly if the conditions read from the combination imply the
grant, or none are read because the request is refused.
-/

namespace Lux

open StdText GrantFilter

/-! ### Reading the combination -/

/-- The caller's filter text is complete on its own: it tokenizes, and reading it does not end
inside a value list. -/
def closesItsText (user : Str) : Bool :=
  match tokenizeWhere (trim user) with
  | .error _ => false
  | .ok ts =>
    match parseWhereConditions ts with
    | .error e => e != unterminatedInList
    | .ok _ => true

theorem closesItsText_iff {user : Str} : closesItsText user = true ↔
    ∃ ts, tokenizeWhere (trim user) = .ok ts ∧
      parseWhereConditions ts ≠ .error unterminatedInList := by
  rw [closesItsText]
  cases htok : tokenizeWhere (trim user) with
  | error e => simp
  | ok ts =>
    cases hparse : parseWhereConditions ts with
    | error e => simp [hparse]
    | ok ws => simp [hparse]

/-- **The combination is read as the caller's conditions followed by the grant's.** -/
theorem parse_combineWhere {f : GrantFilter} (hne : f.conditions ≠ [])
    (hf : ∀ c ∈ f.conditions, Renderable c) {user : Str} (hclosed : closesItsText user = true)
    {tokens : List Str} {ws : List WhereClause}
    (htok : tokenizeWhere (combineWhere user f.text) = .ok tokens)
    (hws : parseWhereConditions tokens = .ok ws) : ∃ before, ws = before ++ f.clauses := by
  have hchunks := grantChunk hf
  -- What the parser makes of the grant's tokens, once it has come to them.
  have hgrant : ∀ grant, parseWhereConditions f.tokens = .ok grant → grant = f.clauses := by
    intro grant h
    rw [parse_tokens hne hf] at h
    split at h
    · cases h
    · cases h; rfl
  rw [text, combineWhere_chunkText (chunks_ne_nil hne)
    (fun c hc => (hchunks c hc).solid)] at htok
  by_cases huser : trim user = []
  · rw [if_pos huser, tokenizeWhere_chunkText f.chunks (lexesTo_chunks hf)] at htok
    cases htok
    exact ⟨[], hgrant ws hws⟩
  obtain ⟨ts, hts, hopen⟩ := closesItsText_iff.mp hclosed
  have hlex : ∀ c ∈ word (str "AND") :: f.chunks, LexesTo c.1 c.2 := by
    intro c hc
    rcases List.mem_cons.mp hc with rfl | hc
    · exact (grantChunk_fixed (by simp)).lexesTo
    · exact (hchunks c hc).lexesTo
  rw [if_neg huser, tokenizeWhere_append_chunks hts _ hlex] at htok
  cases htok
  obtain ⟨c, hc, rest, htokens⟩ := tokens_eq_cons hne
  have hcol : isKeyword c.field = false := by
    cases hf c hc with
    | cmp op value hcol => exact hcol.2
    | null hcol => exact hcol.2
    | notNull hcol => exact hcol.2
    | list negated values hcol _ _ => exact hcol.2
  have hshape : ts ++ (word (str "AND") :: f.chunks).map Prod.snd =
      ts ++ str "AND" :: c.field :: rest := by
    rw [← htokens]; rfl
  rw [hshape] at hws
  obtain ⟨before, grant, rfl, hread⟩ := parseWhereConditions_append hcol ts ws hws hopen
  rw [← htokens] at hread
  exact ⟨before, by rw [hgrant grant hread]⟩

/-- A filter that passes the check names fields of the table only. -/
theorem knows_of_validateFilter {s : Schema} {ws : List WhereClause}
    (h : validateFilter s ws = .ok ()) {w : WhereClause} (hw : w ∈ ws) {c : Condition}
    (hc : c ∈ w.alternatives) : s.knows c.field = true := by
  obtain ⟨_, -, hfields⟩ := KeyedList.bind_eq_ok.mp (KeyedList.forM_eq_ok.mp h w hw)
  have hfield := KeyedList.forM_eq_ok.mp hfields c hc
  rw [validateWhereField] at hfield
  split at hfield
  · next hknown =>
      simp only [Schema.knows, Bool.or_eq_true, Bool.and_eq_true, beq_iff_eq]
      tauto
  · cases hfield

/-! ### Containment -/

/-- Every row that a user's request changes or removes was covered by the grant. -/
def WriteContained (eng : Engine) (g : WriteGrant) (t : Table) (user : Str) : Prop :=
  ∀ stmt t', routeStatement eng (.user (.ok g)) t stmt (some user) = .ok t' →
    ∀ pk row, t.row pk = some row → t'.row pk ≠ some row →
      grantHolds eng.ext t.schema row g.clauses = true

/-- The grant's text is read as it was written: it is empty, or the caller's text is complete on
its own and the grant has plain columns and no `)` among the values of a list. -/
def ReadAsWritten (clauses : List GrantClause) (user : Str) : Prop :=
  renderEnforcedClauses clauses none = .ok [] ∨
    (PlainGrant clauses none ∧ closesItsText user = true)

/-- A grant without filter text covers every row. -/
theorem grantHolds_of_render_nil {ext : Externals} {s : Schema} {row : Row}
    {clauses : List GrantClause} (hclauses : clauses ≠ []) {f : GrantFilter}
    (hf : grantFilter clauses none = .ok f) (hnil : f.conditions = []) :
    grantHolds ext s row clauses = true := by
  have hvacuous : ∀ c ∈ f.conditions, s.knows c.field = true := by
    rw [hnil]; intro c hc; cases hc
  rw [← rowMatches_grantFilter hclauses hf hvacuous, grantFilter_eq_all_nil hf hnil]
  rfl

/-- The conditions read from the combination imply the grant. -/
def FilterImplies (ext : Externals) (s : Schema) (clauses : List GrantClause) (user : Str) : Prop :=
  ∀ ws, narrowedFilter s clauses user = .ok ws → ∀ row, rowMatches ext s row ws = true →
    grantHolds ext s row clauses = true

/-- A request that is refused before any row is looked at: the grant cannot be written as a filter,
or the combination is no filter on the table. -/
def Refused (s : Schema) (clauses : List GrantClause) (user : Str) : Prop :=
  ∃ e, narrowedFilter s clauses user = .error e

/-- While the grant's text is read as it was written, the combination implies the grant. -/
theorem filterImplies_of_readAsWritten {ext : Externals} {s : Schema} {clauses : List GrantClause}
    (hclauses : clauses ≠ []) {user : Str} (h : ReadAsWritten clauses user) :
    FilterImplies ext s clauses user := by
  intro ws hread row hmeets
  obtain ⟨text, tokens, htext, htokens, hws, hvalid⟩ := narrowedFilter_eq_ok.mp hread
  have htok := parseHttpWhereTokens_eq_ok htokens
  have hrender := htext
  rw [renderEnforcedClauses_eq] at hrender
  obtain ⟨f, hf, rfl⟩ := KeyedList.map_eq_ok.mp hrender
  by_cases hnil : f.conditions = []
  · exact grantHolds_of_render_nil hclauses hf hnil
  rcases h with hempty | ⟨hplain, hclosed⟩
  · -- A filter with conditions has a text.
    exfalso
    rw [htext] at hempty
    have hnone : f.text = [] := Except.ok.inj hempty
    exact text_ne_nil hnil hnone
  · obtain ⟨before, rfl⟩ := parse_combineWhere hnil (hplain.renderable hf) hclosed htok hws
    rw [rowMatches, List.all_append, Bool.and_eq_true] at hmeets
    rw [← rowMatches_grantFilter hclauses hf]
    · exact hmeets.2
    · intro c hc
      obtain ⟨w, hw, hcw⟩ := mem_alternatives hc
      exact knows_of_validateFilter hvalid (List.mem_append_right before hw) hcw

/-- What an implied grant contains. -/
theorem FilterImplies.writeContained {eng : Engine} (hauth : eng.authEnabled = true)
    {g : WriteGrant} {user : Str} {t : Table}
    (h : FilterImplies eng.ext t.schema g.clauses user) : WriteContained eng g t user := by
  intro stmt t' hroute pk row hrow hchanged
  obtain ⟨ws, hread, hmeets⟩ := routeStatement_touches hauth hroute hrow hchanged
  exact h ws hread row hmeets

/-- **Write containment.**  The requests with a filter text are contained on every table with a
schema exactly if the combination implies the grant; and it does if the request is refused or the
grant's text is read as it was written. -/
theorem writeContained_iff_filterImplies (ext : Externals) (s : Schema) (g : WriteGrant)
    (user : Str) :
    ((∀ eng t, eng.ext = ext → eng.authEnabled = true → t.schema = s →
        WriteContained eng g t user) ↔ FilterImplies ext s g.clauses user) ∧
      (Refused s g.clauses user ∨ ReadAsWritten g.clauses user →
        FilterImplies ext s g.clauses user) := by
  refine ⟨⟨fun h ws hread row hmeets => ?_, ?_⟩, ?_⟩
  · -- a row that meets the conditions is removed from the table that has nothing else
    refine h (scanningEngine ext (soleRow s row)) (soleRow s row) rfl rfl rfl .delete _
      (routeStatement_soleRow hread hmeets) (str "1") row rfl ?_
    exact nofun
  · rintro h eng t rfl hauth rfl
    exact h.writeContained hauth
  · rintro (⟨e, hrefused⟩ | hread)
    · intro ws hok
      rw [hrefused] at hok
      cases hok
    · exact filterImplies_of_readAsWritten g.nonempty hread

/-! ### An example -/

/-- A table of notes with an owner. -/
def notesSchema : Schema where
  fields := [{ name := str "id", fieldType := .int, primaryKey := true },
    { name := str "owner", fieldType := .str }, { name := str "body", fieldType := .str }]
  named := by decide
  distinct := by decide

/-- One note of each of two owners. -/
def notes : Table where
  schema := notesSchema
  rows := [(str "1", [(str "id", str "1"), (str "owner", str "ann"), (str "body", str "x")]),
    (str "2", [(str "id", str "2"), (str "owner", str "bob"), (str "body", str "y")])]
  keys := by decide

theorem annsClauses_nonempty :
    ([[.cmp (str "owner") .eq (str "ann")]] : List GrantClause) ≠ [] := by
  decide

/-- The grant `owner = 'ann'`. -/
def annsNotes : WriteGrant where
  table := str "notes"
  clauses := [[.cmp (str "owner") .eq (str "ann")]]
  nonempty := annsClauses_nonempty

/-- The scanning engine without JSON documents. -/
def plainEngine (t : Table) : Engine := scanningEngine ⟨fun _ => none, fun _ => [], id⟩ t

theorem plainGrant_annsNotes : PlainGrant annsNotes.clauses none :=
  plainGrant_cmp ⟨plainWord_of_all (by decide) (by decide) (by decide), by decide⟩ _ _

/-- With a complete filter text the grant confines a delete to the covered rows; a text with an open
list is refused. -/
theorem writeContained_notes :
    WriteContained (plainEngine notes) annsNotes notes (str "body != 'z'") ∧
      Refused notesSchema annsNotes.clauses (str "body IN ( 'x'") ∧
      WriteContained (plainEngine notes) annsNotes notes (str "body IN ( 'x'") := by
  have hrefused : Refused notesSchema annsNotes.clauses (str "body IN ( 'x'") :=
    ⟨unterminatedInList, by decide⟩
  have hcontained : ∀ user, Refused notesSchema annsNotes.clauses user ∨
      ReadAsWritten annsNotes.clauses user →
      WriteContained (plainEngine notes) annsNotes notes user := by
    intro user h
    obtain ⟨hiff, himplies⟩ :=
      writeContained_iff_filterImplies (plainEngine notes).ext notesSchema annsNotes user
    exact hiff.mpr (himplies h) (plainEngine notes) notes rfl rfl rfl
  exact ⟨hcontained _ (.inr (.inr ⟨plainGrant_annsNotes, by decide⟩)), hrefused,
    hcontained _ (.inl hrefused)⟩

/-- **An open quote escapes the grant.**  The filter text `body != '` takes the text of the grant
up to its first quote into the value it compares with, and the other owner's note is removed. -/
theorem not_writeContained_open_quote :
    ¬ WriteContained (plainEngine notes) annsNotes notes (str "body != '") := by
  intro h
  have hdeleted : routeStatement (plainEngine notes) (.user (.ok annsNotes)) notes .delete
      (some (str "body != '")) = .ok (notes.remove [str "1", str "2"]) := by
    decide
  have hcovered := h .delete _ hdeleted (str "2") _ rfl (by decide)
  revert hcovered
  decide

end Lux
