import Lux.GrantFilter

/-!
# A grant's filter denotes the grant

For columns the table has, the conditions a grant is written as hold of a row exactly if the grant
covers the row (`rowMatches_grantFilter`). The rendering's special cases are what there is to
show: empty membership sets, alternatives merged into one membership, alternatives no row can
meet, and alternatives that ask for nothing.
-/

namespace Lux

open StdText List EnforcedCondition Condition

variable {ext : Externals} {s : Schema} {row : Row}

/-! ### Conditions on a known field -/

variable {field : Str} {cond : EnforcedCondition} {f : GrantFilter}

/-- A field the table has that is no path into a JSON column: the implicit `id`, or a column. -/
theorem knows_without_path (hk : s.knows field = true)
    (hpath : (splitOnce '.' field).filter (fun p => s.isJson p.1) = none) :
    '.' ∉ field ∧ ((s.implicitPk = true ∧ field = str "id") ∨ (s.find field).isSome = true) := by
  have hnot : isJsonPathField field s = false := by
    rw [isJsonPathField]
    cases hsplit : splitOnce '.' field with
    | none => rfl
    | some p =>
      rw [hsplit] at hpath
      simpa [Option.filter] using hpath
  rw [Schema.knows, hnot, Bool.or_false, Bool.or_eq_true, Bool.and_eq_true, beq_iff_eq] at hk
  refine ⟨?_, hk⟩
  rcases hk with ⟨-, rfl⟩ | hfind
  · decide
  · obtain ⟨f, hf⟩ := Option.isSome_iff_exists.mp hfind
    exact Schema.find_no_dot hf

/-- What a condition on a field is compared with: the value at a path of a JSON column, or the
value of a column. -/
theorem rowMatchesCondition_known (ext : Externals) (row : Row)
    (hk : s.knows field = true) :
    (∃ raw path, ∀ c : Condition, c.field = field →
        rowMatchesCondition ext s row c = evalJsonPath ext raw path c) ∨
      ∃ ft val, ∀ c : Condition, c.field = field →
        rowMatchesCondition ext s row c = matchesCondition ext ft val c := by
  cases hpath : (splitOnce '.' field).filter (fun p => s.isJson p.1) with
  | some p =>
    left
    refine ⟨row.get p.1, p.2, ?_⟩
    rintro c rfl
    rw [rowMatchesCondition, hpath]
  | none =>
    right
    obtain ⟨hdot, hk⟩ := knows_without_path hk hpath
    have hbare : bareCol field = field := afterLast_eq_self hdot
    cases hfind : s.find field with
    | some f =>
      refine ⟨f.fieldType, row.get field, ?_⟩
      rintro c rfl
      rw [rowMatchesCondition, hpath, hbare]
      simp [hfind]
    | none =>
      rw [hfind] at hk
      simp only [Option.isSome_none, Bool.false_eq_true, or_false] at hk
      refine ⟨.int, row.get field, ?_⟩
      rintro c rfl
      rw [rowMatchesCondition, hpath, hbare]
      simp only [hfind]
      rw [if_pos ⟨hk.2, hk.1⟩]

theorem compareStr_eq_iff (a b : Str) : (compareStr a b == .eq) = (a == b) := by
  rw [compareStr]
  by_cases hlt : a < b
  · have hne : a ≠ b := fun h => absurd (h ▸ hlt) (lt_irrefl b)
    simp [hne]
  · by_cases heq : a = b
    · simp [heq]
    · simp [hlt]

theorem compareTyped_eq (ft : FieldType) (lhs rhs : Str) :
    compareTyped ext ft lhs .eq rhs = elemEq ft lhs rhs := by
  cases ft <;> simp only [compareTyped, elemEq, opHolds, compareStr_eq_iff] <;>
    (by_cases h : intOf lhs = intOf rhs <;> simp [h])

/-- Membership is equality with one of the values. -/
theorem rowMatchesCondition_inList (hk : s.knows field = true) (values : List Str) :
    rowMatchesCondition ext s row (.list field .inList values) =
      values.any fun v => rowMatchesCondition ext s row (.single field .eq v) := by
  rcases rowMatchesCondition_known ext row hk with
    ⟨raw, path, heval⟩ | ⟨ft, val, heval⟩
  · rw [heval _ rfl]
    simp only [heval _ (rfl : (single field .eq _).field = field)]
    simp only [evalJsonPath, list, single]
    cases raw.bind ext.fromStr with
    | none =>
      have hin : (CmpOp.inList == CmpOp.isNotValid) = false := rfl
      simp [hin]
    | some doc =>
      simp only
      cases (jsonPathGet doc (path.splitOnP (· == '.'))).bind jsonScalarString with
      | none => simp
      | some actual => rfl
  · rw [heval _ rfl]
    simp only [heval _ (rfl : (single field .eq _).field = field)]
    cases val with
    | none =>
      have hin : (CmpOp.inList == CmpOp.ne || CmpOp.inList == CmpOp.isNull) = false := rfl
      simp [matchesCondition, list, single, hin]
    | some val =>
      simp only [matchesCondition, list, single, compareTyped_eq]

/-- No row has a field both null and not null. -/
theorem rowMatchesCondition_contradictory (hk : s.knows field = true) :
    (contradictory field).all (rowMatchesCondition ext s row) = false := by
  rcases rowMatchesCondition_known ext row hk with
    ⟨raw, path, heval⟩ | ⟨ft, val, heval⟩
  · have hnull : rowMatchesCondition ext s row (.single field .isNull []) = false := by
      rw [heval _ rfl, evalJsonPath]
      cases raw.bind ext.fromStr with
      | none => rfl
      | some doc =>
        simp only [single]
        cases (jsonPathGet doc (path.splitOnP (· == '.'))).bind jsonScalarString <;> rfl
    simp [contradictory, hnull]
  · cases val with
    | none =>
      have hnull : rowMatchesCondition ext s row (.single field .isNotNull []) = false := by
        rw [heval _ rfl]; rfl
      simp [contradictory, hnull]
    | some val =>
      have hnull : rowMatchesCondition ext s row (.single field .isNull []) = false := by
        rw [heval _ rfl]; rfl
      simp [contradictory, hnull]

/-! ### One enforced condition -/

/-- The conditions an enforced condition is written as hold together exactly if it holds. -/
theorem all_writtenConditions (c : EnforcedCondition)
    (hk : ∀ d ∈ writtenConditions none c, s.knows d.field = true) :
    (writtenConditions none c).all (rowMatchesCondition ext s row) = c.holds ext s row := by
  have hplain : ∀ c : EnforcedCondition, s.knows c.column = true →
      [c.condition none].all (rowMatchesCondition ext s row) =
        (s.knows c.column && rowMatchesCondition ext s row (c.condition none)) := by
    intro c hc
    simp [hc]
  cases c with
  | cmp column op value =>
    exact hplain (.cmp column op value) (hk (.single column op.cmpOp value) (mem_singleton_self _))
  | inSet column negated values =>
    cases values with
    | nil =>
      cases negated
      · exact rowMatchesCondition_contradictory (hk (.single column .isNull []) mem_cons_self)
      · rfl
    | cons v vs =>
      exact hplain (.inSet column negated (v :: vs))
        (hk (condition none (.inSet column negated (v :: vs)))
          (mem_singleton_self _))

/-- The same for a clause. -/
theorem all_clauseConditions (conds : GrantClause)
    (hk : ∀ d ∈ conds.flatMap (writtenConditions none), s.knows d.field = true) :
    (conds.flatMap (writtenConditions none)).all (rowMatchesCondition ext s row) =
      conds.all (holds ext s row) := by
  induction conds with
  | nil => rfl
  | cons c conds ih =>
    rw [flatMap_cons, all_append, all_cons,
      all_writtenConditions c (fun d hd => hk d (by simp [hd])),
      ih (fun d hd => hk d (by rw [flatMap_cons]; exact mem_append_right _ hd))]

/-- No row meets a clause with a membership in the empty set. -/
theorem all_of_never {conds : GrantClause} (h : conds.any isNever = true) :
    conds.all (holds ext s row) = false := by
  obtain ⟨c, hc, hnever⟩ := any_eq_true.mp h
  have hfalse : c.holds ext s row = false := by
    unfold isNever at hnever
    split at hnever
    · rfl
    · cases hnever
  rw [all_eq_false]
  exact ⟨c, hc, by simp [hfalse]⟩

/-! ### Alternatives merged into one membership -/

theorem mem_addValue (values : List Str) (v w : Str) :
    w ∈ addValue values v ↔ w ∈ values ∨ w = v := by
  rw [addValue]
  split
  · next h =>
    have hv : v ∈ values := by simpa using h
    constructor
    · exact .inl
    · rintro (h | rfl)
      · exact h
      · exact hv
  · simp

theorem mem_foldl_addValue (set values : List Str) (w : Str) :
    w ∈ set.foldl addValue values ↔ w ∈ values ∨ w ∈ set := by
  induction set generalizing values with
  | nil => simp
  | cons v set ih => rw [foldl_cons, ih, mem_addValue]; simp [or_assoc]

/-- A clause asks one column for equality: the values it admits. -/
inductive AsksEquality (column : Str) : GrantClause → List Str → Prop
  | cmp (value : Str) : AsksEquality column [.cmp column .eq value] [value]
  | inSet (values : List Str) : AsksEquality column [.inSet column false values] values

variable {column : Str} {clause : GrantClause}

theorem AsksEquality.unique {column' : Str} {vs ws : List Str} (h : AsksEquality column clause vs)
    (h' : AsksEquality column' clause ws) : vs = ws := by
  cases h <;> cases h' <;> rfl

theorem collapseStep_eq_some {acc : Option Str × List Str} {next : Option Str × List Str}
    (h : collapseStep acc clause = some next) :
    ∃ column values, AsksEquality column clause values ∧ next.1 = some column ∧
      (∀ c ∈ acc.1, c = column) ∧ ∀ w, w ∈ next.2 ↔ w ∈ acc.2 ∨ w ∈ values := by
  have hsame : ∀ column, acc.1.any (· != column) = false → ∀ c ∈ acc.1, c = column := by
    intro column hany c hc
    rw [Option.mem_def] at hc
    simpa [hc] using hany
  unfold collapseStep at h
  split at h
  · next column value =>
    split at h
    · cases h
    · next hany =>
      cases h
      exact ⟨column, [value], .cmp value, rfl, hsame column (by simpa using hany), fun w => by
        rw [mem_addValue]; simp⟩
  · next column values =>
    split at h
    · cases h
    · next hany =>
      cases h
      exact ⟨column, values, .inSet values, rfl, hsame column (by simpa using hany), fun w => by
        rw [mem_foldl_addValue]⟩
  · cases h

/-- What the merging loop returns: every clause asks the one column for equality, and the values
are those of all clauses. -/
theorem foldlM_collapseStep (clauses : List GrantClause) : ∀ (acc : Option Str × List Str)
    (column : Str) (values : List Str),
    clauses.foldlM collapseStep acc = some (some column, values) →
    (∀ c ∈ acc.1, c = column) ∧ (∀ clause ∈ clauses, ∃ vs, AsksEquality column clause vs) ∧
      ∀ v, v ∈ values ↔
        v ∈ acc.2 ∨ ∃ clause ∈ clauses, ∃ vs, AsksEquality column clause vs ∧ v ∈ vs := by
  induction clauses with
  | nil =>
    intro acc column values h
    cases h
    refine ⟨fun c hc => ?_, fun clause hc => ?_, fun v => ?_⟩
    · cases hc; rfl
    · cases hc
    · simp
  | cons clause clauses ih =>
    intro acc column values h
    rw [foldlM_cons] at h
    cases hstep : collapseStep acc clause with
    | none => rw [hstep] at h; cases h
    | some next =>
      rw [hstep] at h
      obtain ⟨column', vs, hasks, hnext, hacc, hvalues⟩ := collapseStep_eq_some hstep
      obtain ⟨hcol, hall, hmem⟩ := ih next column values h
      have hsame : column' = column := hcol column' (by rw [hnext]; rfl)
      subst hsame
      refine ⟨hacc, ?_, fun v => ?_⟩
      · intro clause' hclause
        rcases mem_cons.mp hclause with rfl | hclause
        · exact ⟨vs, hasks⟩
        · exact hall clause' hclause
      · rw [hmem v, hvalues v]
        constructor
        · rintro ((hv | hv) | ⟨clause', hclause, vs', hasks', hv⟩)
          · exact .inl hv
          · exact .inr ⟨clause, by simp, vs, hasks, hv⟩
          · exact .inr ⟨clause', by simp [hclause], vs', hasks', hv⟩
        · rintro (hv | ⟨clause', hclause, vs', hasks', hv⟩)
          · exact .inl (.inl hv)
          · rcases mem_cons.mp hclause with rfl | hclause
            · rw [hasks'.unique hasks] at hv
              exact .inl (.inr hv)
            · exact .inr ⟨clause', hclause, vs', hasks', hv⟩

variable {clauses : List GrantClause}

/-- A merged membership: every alternative asks its column for equality, and its values are
theirs. -/
theorem collapse_eq_some
    (h : collapseSameColumnOrClauses clauses = some cond) :
    ∃ column values, cond = .inSet column false values ∧
      (∀ clause ∈ clauses, ∃ vs, AsksEquality column clause vs) ∧
      ∀ v, v ∈ values ↔ ∃ clause ∈ clauses, ∃ vs, AsksEquality column clause vs ∧ v ∈ vs := by
  rw [collapseSameColumnOrClauses] at h
  cases hfold : clauses.foldlM collapseStep (none, []) with
  | none => rw [hfold] at h; cases h
  | some result =>
    obtain ⟨_ | column, values⟩ := result
    · rw [hfold] at h; cases h
    · rw [hfold] at h
      cases h
      obtain ⟨-, hall, hmem⟩ := foldlM_collapseStep clauses _ column values hfold
      exact ⟨column, values, rfl, hall, fun v => by simpa using hmem v⟩

/-- A clause that asks for equality holds exactly if one of its values is met. -/
theorem AsksEquality.all_holds {vs : List Str} (h : AsksEquality column clause vs)
    (hk : s.knows column = true) :
    clause.all (holds ext s row) =
      vs.any fun v => rowMatchesCondition ext s row (.single column .eq v) := by
  cases h with
  | cmp value =>
    simp [EnforcedCondition.holds, EnforcedCondition.column, hk, EnforcedCondition.condition,
      qualifiedGrantColumn, GrantOp.cmpOp]
  | inSet values =>
    cases vs with
    | nil => rfl
    | cons v vs =>
      have hin : rowMatchesCondition ext s row (.list column .inList (v :: vs)) = _ :=
        rowMatchesCondition_inList hk (v :: vs)
      simpa [EnforcedCondition.holds, EnforcedCondition.column, hk, EnforcedCondition.condition,
        qualifiedGrantColumn] using hin

/-- The merged membership denotes the alternatives. -/
theorem all_collapsed
    (h : collapseSameColumnOrClauses clauses = some cond)
    (hk : ∀ d ∈ writtenConditions none cond, s.knows d.field = true) :
    (writtenConditions none cond).all (rowMatchesCondition ext s row) =
      grantHolds ext s row clauses := by
  obtain ⟨column, values, rfl, hall, hmem⟩ := collapse_eq_some h
  have hcol : s.knows column = true := by
    cases values with
    | nil => exact hk (.single column .isNull []) mem_cons_self
    | cons v vs => exact hk (.list column .inList (v :: vs)) (mem_singleton_self _)
  have hvalues : (EnforcedCondition.inSet column false values).holds ext s row =
      values.any fun v => rowMatchesCondition ext s row (.single column .eq v) := by
    have hasks : AsksEquality column [.inSet column false values] values := .inSet values
    simpa using hasks.all_holds hcol
  rw [all_writtenConditions _ hk, hvalues, grantHolds, Bool.eq_iff_iff, any_eq_true, any_eq_true]
  constructor
  · rintro ⟨v, hv, hmatch⟩
    obtain ⟨clause, hclause, vs, hasks, hv⟩ := (hmem v).mp hv
    refine ⟨clause, hclause, ?_⟩
    rw [hasks.all_holds hcol]
    exact any_eq_true.mpr ⟨v, hv, hmatch⟩
  · rintro ⟨clause, hclause, hholds⟩
    obtain ⟨vs, hasks⟩ := hall clause hclause
    rw [hasks.all_holds hcol] at hholds
    obtain ⟨v, hv, hmatch⟩ := any_eq_true.mp hholds
    exact ⟨v, (hmem v).mpr ⟨clause, hclause, vs, hasks, hv⟩, hmatch⟩

/-! ### The cases of the rendering -/

variable {qualifier : Option Str}

/-- What the rendering of alternatives does with the first: one that no row can meet is passed
over, one that asks for nothing ends the loop, and one written as a single condition is a branch. -/
theorem branchConditions_cons {rest : List GrantClause} {out : Option (List Condition)}
    (h : branchConditions qualifier (clause :: rest) = .ok out) :
    (clause.any isNever = true ∧ branchConditions qualifier rest = .ok out) ∨
      (clause.flatMap (writtenConditions qualifier) = [] ∧ out = none) ∨
      ∃ c more, clause.flatMap (writtenConditions qualifier) = [c] ∧
        branchConditions qualifier rest = .ok more ∧ out = more.map (c :: ·) := by
  rw [branchConditions] at h
  by_cases hnever : clause.any isNever = true
  · rw [if_pos hnever] at h
    exact .inl ⟨hnever, h⟩
  rw [if_neg hnever] at h
  rcases hwritten : clause.flatMap (writtenConditions qualifier) with _ | ⟨c, _ | ⟨d, cs⟩⟩
  · rw [hwritten] at h
    cases h
    exact .inr (.inl ⟨rfl, rfl⟩)
  · rw [hwritten] at h
    cases hrest : branchConditions qualifier rest with
    | error e => rw [hrest] at h; cases h
    | ok more =>
      rw [hrest] at h
      cases h
      exact .inr (.inr ⟨c, more, rfl, rfl, rfl⟩)
  · rw [hwritten] at h; cases h

/-- The ways a grant is written as a filter. -/
inductive WrittenAs (clauses : List GrantClause) (qualifier : Option Str) : GrantFilter → Prop
  | single (clause : GrantClause) : clauses = [clause] →
      WrittenAs clauses qualifier (.all (clause.flatMap (writtenConditions qualifier)))
  | merged (cond : EnforcedCondition) : collapseSameColumnOrClauses clauses = some cond →
      WrittenAs clauses qualifier (.all (writtenConditions qualifier cond))
  | unrestricted : branchConditions qualifier clauses = .ok none →
      WrittenAs clauses qualifier (.all [])
  | impossible (first : EnforcedCondition) : branchConditions qualifier clauses = .ok (some []) →
      first ∈ clauses.flatten → WrittenAs clauses qualifier
        (.all (contradictory (qualifiedGrantColumn first.column qualifier)))
  | branches (c : Condition) (cs : List Condition) :
      branchConditions qualifier clauses = .ok (some (c :: cs)) →
      WrittenAs clauses qualifier (.any (c :: cs))

theorem writtenAs_of_grantFilter (hne : clauses ≠ [])
    (hf : grantFilter clauses qualifier = .ok f) : WrittenAs clauses qualifier f := by
  rcases clauses with _ | ⟨clause, _ | ⟨second, rest⟩⟩
  · exact absurd rfl hne
  · cases hf
    exact .single clause rfl
  · replace hf : orFilter (clause :: second :: rest) qualifier = .ok f := hf
    rw [orFilter] at hf
    cases hcollapse : collapseSameColumnOrClauses (clause :: second :: rest) with
    | some cond =>
      rw [hcollapse] at hf
      cases hf
      exact .merged cond hcollapse
    | none =>
      rw [hcollapse] at hf
      cases hbranches : branchConditions qualifier (clause :: second :: rest) with
      | error e => rw [hbranches] at hf; cases hf
      | ok branches =>
        simp only [hbranches, bind] at hf
        rcases branches with _ | _ | ⟨c, cs⟩
        · cases hf
          exact .unrestricted hbranches
        · cases hflat : (clause :: second :: rest).flatten with
          | nil =>
            -- a clause without conditions asks for nothing
            rw [flatten_cons, append_eq_nil_iff] at hflat
            rw [hflat.1] at hbranches
            cases hbranches
          | cons first more =>
            rw [hflat] at hf
            cases hf
            exact .impossible first hbranches (by rw [hflat]; exact mem_cons_self)
        · cases hf
          exact .branches c cs hbranches

/-! ### Alternatives -/

/-- An alternative that asks for nothing holds of every row. -/
theorem branchConditions_none (h : branchConditions none clauses = .ok none) :
    grantHolds ext s row clauses = true := by
  induction clauses with
  | nil => cases h
  | cons clause rest ih =>
    rw [grantHolds, any_cons, Bool.or_eq_true]
    rcases branchConditions_cons h with ⟨-, h⟩ | ⟨hwritten, -⟩ | ⟨c, more, -, hrest, hout⟩
    · exact .inr (ih h)
    · left
      rw [← all_clauseConditions clause (by rw [hwritten]; simp), hwritten]
      rfl
    · rw [Option.map_eq_none_iff.mp hout.symm] at hrest
      exact .inr (ih hrest)

/-- The branches of an `OR` filter denote the alternatives. -/
theorem any_branchConditions : ∀ {cs : List Condition},
    branchConditions none clauses = .ok (some cs) → (∀ c ∈ cs, s.knows c.field = true) →
    cs.any (rowMatchesCondition ext s row) = grantHolds ext s row clauses := by
  induction clauses with
  | nil => intro cs h _; cases h; rfl
  | cons clause rest ih =>
    intro cs h hk
    rcases branchConditions_cons h with
      ⟨hnever, h⟩ | ⟨-, hout⟩ | ⟨c, more, hwritten, hrest, hout⟩
    · rw [ih h hk, grantHolds, grantHolds, any_cons, all_of_never hnever, Bool.false_or]
    · cases hout
    · obtain ⟨cs', rfl, rfl⟩ := Option.map_eq_some_iff.mp hout.symm
      have hclause : _ = clause.all (holds ext s row) :=
        all_clauseConditions clause (by rw [hwritten]; simpa using hk c (by simp))
      rw [hwritten] at hclause
      have htail := ih hrest (fun d hd => hk d (by simp [hd]))
      rw [any_cons, htail, grantHolds, grantHolds, any_cons, ← hclause]
      simp

variable (cs : List Condition)

theorem rowMatches_all :
    rowMatches ext s row (GrantFilter.all cs).clauses = cs.all (rowMatchesCondition ext s row) := by
  simp [rowMatches, GrantFilter.clauses, WhereClause.alternatives, Function.comp_def]

theorem alternatives_mkGroup : (mkGroup cs).alternatives = cs := by
  rcases cs with _ | ⟨c, _ | ⟨d, cs⟩⟩ <;> rfl

theorem rowMatches_any :
    rowMatches ext s row (GrantFilter.any cs).clauses = cs.any (rowMatchesCondition ext s row) := by
  simp [rowMatches, GrantFilter.clauses, alternatives_mkGroup]

/-- **A grant's filter denotes the grant.**  On fields the table has, a row passes the filter a
grant is written as exactly if the grant covers the row. -/
theorem rowMatches_grantFilter (hne : clauses ≠ [])
    (hf : grantFilter clauses none = .ok f) (hk : ∀ c ∈ f.conditions, s.knows c.field = true) :
    rowMatches ext s row f.clauses = grantHolds ext s row clauses := by
  cases writtenAs_of_grantFilter hne hf with
  | single clause hclause =>
    rw [rowMatches_all, all_clauseConditions clause hk, hclause]
    simp [grantHolds]
  | merged cond hcollapse =>
    rw [rowMatches_all]
    exact all_collapsed hcollapse hk
  | unrestricted hbranches =>
    rw [branchConditions_none hbranches]
    rfl
  | impossible first hbranches hfirst =>
    -- no alternative can be met
    have hfalse : grantHolds ext s row clauses = false := by
      rw [← any_branchConditions hbranches (fun c hc => by cases hc)]
      rfl
    rw [hfalse, rowMatches_all]
    exact rowMatchesCondition_contradictory (hk (.single first.column .isNull []) mem_cons_self)
  | branches c cs hbranches =>
    rw [rowMatches_any]
    exact any_branchConditions hbranches hk

/-! ### Grants over plain columns -/

/-- The columns of a grant are plain words and no keywords, and no value list of its filter has
`)` among its values. -/
def PlainGrant (clauses : List GrantClause) (qualifier : Option Str) : Prop :=
  (∀ conds ∈ clauses, ∀ c ∈ conds, PlainColumn (qualifiedGrantColumn c.column qualifier)) ∧
    ∀ f, grantFilter clauses qualifier = .ok f → ∀ c ∈ f.conditions, str ")" ∉ c.values

/-- One comparison. -/
theorem plainGrant_cmp (hcol : PlainColumn column) (op : GrantOp) (value : Str) :
    PlainGrant [[.cmp column op value]] none := by
  refine ⟨?_, ?_⟩
  · intro conds hconds c hc
    cases mem_singleton.mp hconds
    cases mem_singleton.mp hc
    exact hcol
  · intro f hf c hc
    cases hf
    cases mem_singleton.mp hc
    exact not_mem_nil

theorem renderable_contradictory (hcol : PlainColumn column) :
    ∀ d ∈ contradictory column, Renderable d := by
  intro d hd
  simp only [contradictory, mem_cons, not_mem_nil, or_false] at hd
  rcases hd with rfl | rfl
  · exact .null hcol
  · exact .notNull hcol

theorem renderable_written {c : EnforcedCondition}
    (hcol : PlainColumn (qualifiedGrantColumn c.column qualifier)) :
    ∀ d ∈ writtenConditions qualifier c, str ")" ∉ d.values → Renderable d := by
  intro d hd hparen
  cases c with
  | cmp column op value =>
    rw [mem_singleton.mp hd]
    exact .cmp op value hcol
  | inSet column negated values =>
    cases values with
    | nil =>
      cases negated
      · exact renderable_contradictory hcol d hd
      · cases hd
    | cons v vs =>
      rw [mem_singleton.mp hd] at hparen ⊢
      exact .list negated (v :: vs) hcol (by simp) hparen

/-- Every branch is written by a condition of an alternative. -/
theorem branchConditions_written :
    ∀ {cs : List Condition}, branchConditions qualifier clauses = .ok (some cs) →
    ∀ d ∈ cs, ∃ conds ∈ clauses, ∃ c ∈ conds, d ∈ writtenConditions qualifier c := by
  induction clauses with
  | nil => intro cs h d hd; cases h; cases hd
  | cons clause rest ih =>
    intro cs h d hd
    have hlater : ∀ {cs'}, branchConditions qualifier rest = .ok (some cs') → d ∈ cs' →
        ∃ conds ∈ clause :: rest, ∃ c ∈ conds, d ∈ writtenConditions qualifier c := by
      intro cs' hrest hd'
      obtain ⟨conds, hconds, hc⟩ := ih hrest d hd'
      exact ⟨conds, by simp [hconds], hc⟩
    rcases branchConditions_cons h with
      ⟨-, h⟩ | ⟨-, hout⟩ | ⟨c, more, hwritten, hrest, hout⟩
    · exact hlater h hd
    · cases hout
    · obtain ⟨cs', rfl, rfl⟩ := Option.map_eq_some_iff.mp hout.symm
      rcases mem_cons.mp hd with rfl | hd'
      · have hmem : d ∈ clause.flatMap (writtenConditions qualifier) := by
          rw [hwritten]; simp
        obtain ⟨c, hc, hdc⟩ := mem_flatMap.mp hmem
        exact ⟨clause, by simp, c, hc, hdc⟩
      · exact hlater hrest hd'

/-- The conditions of a plain grant's filter can be written and read back. -/
theorem PlainGrant.renderable (h : PlainGrant clauses qualifier)
    (hf : grantFilter clauses qualifier = .ok f) : ∀ d ∈ f.conditions, Renderable d := by
  obtain ⟨hcols, hparens⟩ := h
  intro d hd
  have hparen := hparens f hf d hd
  by_cases hne : clauses = []
  · subst hne
    cases hf
    cases hd
  cases writtenAs_of_grantFilter hne hf with
  | single clause hclause =>
    obtain ⟨c, hc, hdc⟩ := mem_flatMap.mp hd
    exact renderable_written (hcols clause (by simp [hclause]) c hc) d hdc hparen
  | merged cond hcollapse =>
    obtain ⟨column, values, rfl, hall, -⟩ := collapse_eq_some hcollapse
    obtain ⟨clause, rest, rfl⟩ := exists_cons_of_ne_nil hne
    obtain ⟨vs, hasks⟩ := hall clause mem_cons_self
    have hcol : PlainColumn (qualifiedGrantColumn column qualifier) := by
      cases hasks with
      | cmp value | inSet values => exact hcols _ mem_cons_self _ mem_cons_self
    exact renderable_written (c := .inSet column false values) hcol d hd hparen
  | unrestricted => cases hd
  | impossible first _ hfirst =>
    obtain ⟨conds, hconds, hmem⟩ := mem_flatten.mp hfirst
    exact renderable_contradictory (hcols conds hconds first hmem) d hd
  | branches c cs hbranches =>
    obtain ⟨conds, hconds, e, he, hde⟩ := branchConditions_written hbranches d hd
    exact renderable_written (hcols conds hconds e he) d hde hparen

end Lux
