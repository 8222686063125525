import Lux.SelectRun
import Lux.KeyedList

/-!
# What a join means

A query with one join against its relational meaning. A row of the left table and a row of the
right table belong together if the join columns have one value, which is not `NULL`; a left join
has in addition every left row that belongs to none, alone, and with nothing in the columns of the
right table. A condition under one of the two names is about the row of that name.

The executor compares rendered texts, with the empty text for `NULL`, pads with empty texts, and
filters rows from which it has already dropped columns. The rows it returns are the ones meant
exactly if none of this is noticed (`JoinQuery.meant_iff_exact`). It is not noticed if rows with
the same text have a value in the join columns, the filter reads no column that was dropped, and
every row of a left join has a partner (`JoinQuery.Plain`); for a query without conditions nothing
less will do.
-/

namespace Lux

open StdText List

/-! ### Outer joins of lists -/

section OuterJoin

variable {α γ : Type} {pair : α → α → γ} {both both' : α → α → Bool} {alone alone' : α → Option γ}
  {ls rs : List α}

/-- Every left element with each of its partners, and alone where that is asked for. -/
def outerJoin (pair : α → α → γ) (both : α → α → Bool) (alone : α → Option γ) (ls rs : List α) :
    List γ :=
  ls.flatMap fun l => (rs.filter (both l)).map (pair l) ++ (alone l).toList

variable {key : γ → List α}

end OuterJoin

/-! ### Names -/

theorem isPrefixOf_qualified {name s : Str} (h : (name ++ ['.']).isPrefixOf s = true) :
    ∃ x, s = name ++ '.' :: x := by
  obtain ⟨x, rfl⟩ := isPrefixOf_iff_prefix.mp h
  exact ⟨x, by simp⟩

theorem bareCol_qualified (name : Str) {x : Str} (hx : '.' ∉ x) :
    bareCol (name ++ '.' :: x) = x := by
  have hplain : ∀ c ∈ x.reverse, (c != '.') = true := by
    intro c hc
    exact bne_iff_ne.mpr fun heq => hx (heq ▸ mem_reverse.mp hc)
  rw [bareCol, afterLast, rtakeWhile, reverse_append, reverse_cons,
    append_assoc, takeWhile_append_of_pos hplain]
  simp

/-- A qualified name has one qualifier. -/
theorem qualified_inj {q q' x y : Str} (hq : '.' ∉ q) (hq' : '.' ∉ q')
    (h : q ++ '.' :: x = q' ++ '.' :: y) : q = q' := by
  have htake : ∀ {p z : Str}, '.' ∉ p → (p ++ '.' :: z).takeWhile (· != '.') = p := by
    intro p z hp
    rw [takeWhile_append_of_pos]
    · simp
    · intro c hc
      exact bne_iff_ne.mpr fun heq => hp (heq ▸ hc)
  rw [← htake hq (z := x), h, htake hq']

theorem lookup_qualifyRow_self (q : Str) (row : Row) (x : Str) :
    (qualifyRow q row).lookup (q ++ '.' :: x) = row.lookup x := by
  induction row with
  | nil => rfl
  | cons cell row ih =>
    have hcell : (q ++ '.' :: x == q ++ '.' :: cell.1) = (x == cell.1) := by
      rw [Bool.eq_iff_iff, beq_iff_eq, beq_iff_eq, append_cancel_left_eq,
        cons.injEq, and_iff_right rfl]
    rw [qualifyRow] at ih ⊢
    rw [map_cons, lookup_cons, lookup_cons, hcell, ih]

/-- No cell of a qualified row has a name without the qualifier. -/
theorem lookup_qualifyRow_none {q name : Str} (row : Row)
    (h : ∀ x, name ≠ q ++ '.' :: x) : (qualifyRow q row).lookup name = none := by
  rw [lookup_eq_none_iff]
  intro cell hcell
  obtain ⟨original, -, rfl⟩ := mem_map.mp hcell
  exact bne_iff_ne.mpr (h original.1)

/-! ### Conditions on a joined row -/

theorem mem_dotSplits {p : Str × Str} (s : Str) : ∀ before, p ∈ dotSplits before s →
    ∃ u, s = u ++ '.' :: p.2 ∧ p.1 = before ++ u := by
  induction s with
  | nil => intro before h; cases h
  | cons c s ih =>
    intro before h
    have hlater : p ∈ dotSplits (before ++ [c]) s →
        ∃ u, c :: s = u ++ '.' :: p.2 ∧ p.1 = before ++ u := by
      intro hp
      obtain ⟨u, hs, hu⟩ := ih _ hp
      exact ⟨c :: u, by rw [hs]; rfl, by rw [hu, append_assoc]; rfl⟩
    rw [dotSplits] at h
    split at h
    · next hc =>
        rcases mem_cons.mp h with rfl | h
        · exact ⟨[], by rw [hc]; rfl, (append_nil _).symm⟩
        · exact hlater h
    · exact hlater h

/-- The beginning of a qualified name at a dot is the qualifier, or is qualified too. -/
theorem prefix_of_qualified {q x u v : Str} (hq : '.' ∉ q) (h : q ++ '.' :: x = u ++ '.' :: v) :
    u = q ∨ ∃ y, u = q ++ '.' :: y := by
  rcases append_eq_append_iff.mp h with ⟨a, rfl, ha⟩ | ⟨c, rfl, hc⟩
  · cases a with
    | nil => exact .inl (append_nil q)
    | cons d a =>
      cases ha
      exact .inr ⟨a, rfl⟩
  · cases c with
    | nil => exact .inl (append_nil u).symm
    | cons d c =>
      cases hc
      exact absurd (by simp) hq

/-- A condition under a name with dots depends on the cells of that name and of its beginnings. -/
theorem joinedRowMatchesCondition_congr {ext : Externals} {cells cells' : Row} {c : Condition}
    (hdot : '.' ∈ c.field) (hfield : cells.lookup c.field = cells'.lookup c.field)
    (hparts : ∀ u v, c.field = u ++ '.' :: v → cells.lookup u = cells'.lookup u) :
    joinedRowMatchesCondition ext cells c = joinedRowMatchesCondition ext cells' c := by
  have hsplits : ∀ p ∈ (dotSplits [] c.field).reverse, cells.lookup p.1 = cells'.lookup p.1 := by
    intro p hp
    obtain ⟨u, hu, hp⟩ := mem_dotSplits _ _ (mem_reverse.mp hp)
    rw [hp]
    exact hparts u p.2 hu
  have hfind : ∀ ps : List (Str × Str), (∀ p ∈ ps, cells.lookup p.1 = cells'.lookup p.1) →
      (ps.findSome? fun p => (cells.lookup p.1).map fun raw => (raw, p.2)) =
        ps.findSome? fun p => (cells'.lookup p.1).map fun raw => (raw, p.2) := by
    intro ps
    induction ps with
    | nil => intro _; rfl
    | cons p ps ih =>
      intro hps
      rw [findSome?_cons, findSome?_cons, hps p mem_cons_self,
        ih fun p' hp' => hps p' (mem_cons_of_mem _ hp')]
  rw [joinedRowMatchesCondition, joinedRowMatchesCondition, if_pos hdot, if_pos hdot,
    hfind _ hsplits, hfield]

/-! ### Columns that are kept -/

/-- Whether a column of the base table goes into the joined row. -/
def keepsColumn (plan : SelectPlan) (name : Str) : Bool :=
  plan.groupBy != [] || (plan.projections == [] && plan.aggregates == []) ||
    (neededColumns plan).contains name || (extraColumns plan).contains name

theorem lookup_keepColumn (row kept : Row) (name x : Str) :
    (keepColumn row kept name).lookup x =
      (kept.lookup x).or (if x = name then row.lookup x else none) := by
  rw [keepColumn]
  cases hkept : kept.lookup name with
  | some v =>
    by_cases hx : x = name
    · rw [hx, hkept]; rfl
    · rw [if_neg hx, Option.or_none]
  | none =>
    cases hrow : row.lookup name with
    | none =>
      by_cases hx : x = name
      · rw [hx, hkept, if_pos rfl, hrow]; rfl
      · rw [if_neg hx, Option.or_none]
    | some v =>
      rw [lookup_append]
      by_cases hx : x = name
      · rw [hx, if_pos rfl, hrow, lookup_cons, beq_self_eq_true]
      · rw [if_neg hx, lookup_cons, beq_eq_false_iff_ne.mpr hx]; rfl

theorem lookup_keepColumns (row : Row) (names : List Str) : ∀ (kept : Row) (x : Str),
    (names.foldl (keepColumn row) kept).lookup x =
      (kept.lookup x).or (if x ∈ names then row.lookup x else none) := by
  induction names with
  | nil => intro kept x; simp
  | cons name names ih =>
    intro kept x
    rw [foldl_cons, ih, lookup_keepColumn, Option.or_assoc]
    congr 1
    by_cases hx : x = name
    · have hmem : x ∈ name :: names := by rw [hx]; exact mem_cons_self
      rw [if_pos hx]
      split
      · exact Option.or_self
      · exact Option.or_none
    · simp [hx]

/-- **What is left of a base row**: the columns that are kept. -/
theorem lookup_projectBase (plan : SelectPlan) (row : Row) (x : Str) :
    (projectBase plan row).lookup x = if keepsColumn plan x then row.lookup x else none := by
  have hwhole : ∀ o : Option Str, o.or (if x ∈ extraColumns plan then o else none) = o := by
    intro o
    split
    · exact Option.or_self
    · exact Option.or_none
  rw [projectBase, lookup_keepColumns]
  by_cases hgroup : plan.groupBy = []
  swap
  · rw [if_neg hgroup, hwhole]
    simp [keepsColumn, hgroup]
  rw [if_pos hgroup, projectRowFields]
  by_cases hselect : plan.projections = [] ∧ plan.aggregates = []
  · rw [if_pos hselect, hwhole]
    simp [keepsColumn, hselect.1, hselect.2]
  rw [if_neg hselect, KeyedList.lookup_filter_key (fun name => (neededColumns plan).contains name)]
  have hkeeps : keepsColumn plan x =
      ((neededColumns plan).contains x || (extraColumns plan).contains x) := by
    have hlist : (plan.projections == [] && plan.aggregates == []) = false := by
      simpa using hselect
    rw [keepsColumn, hgroup, hlist]
    rfl
  rw [hkeeps]
  by_cases hneeded : (neededColumns plan).contains x = true
  · rw [if_pos hneeded, hwhole, hneeded, Bool.true_or, if_pos rfl]
  · rw [if_neg hneeded, Option.none_or, (Bool.not_eq_true _).mp hneeded, Bool.false_or]
    simp

/-! ### Columns by their names -/

theorem findBare_append (cells cells' : Row) (name : Str) :
    findBare (cells ++ cells') name = (findBare cells name).or (findBare cells' name) := by
  rw [findBare, find?_append, Option.map_or]
  rfl

/-- A column is found by either of its names. -/
theorem findBare_qualifyRow {qualifier column name : Str} (hcolumn : '.' ∉ column)
    (hname : name ∈ [column, qualifier ++ '.' :: column]) {row : Row}
    (hrow : ∀ cell ∈ row, '.' ∉ cell.1) :
    findBare (qualifyRow qualifier row) name = row.lookup column := by
  have hcell : ∀ x : Str, '.' ∉ x → (qualifier ++ '.' :: x == name ||
      ('.' :: name).isSuffixOf (qualifier ++ '.' :: x)) = (column == x) := by
    intro x hx
    rw [Bool.eq_iff_iff, Bool.or_eq_true, beq_iff_eq, beq_iff_eq, isSuffixOf_iff_suffix]
    rcases mem_pair.mp hname with rfl | rfl
    · constructor
      · rintro (heq | ⟨before, heq⟩)
        · exact absurd (by simp [← heq]) hcolumn
        · rw [← bareCol_qualified before hcolumn, heq, bareCol_qualified _ hx]
      · rintro rfl
        exact .inr (suffix_append _ _)
    · constructor
      · rintro (heq | hsuffix)
        · simpa using heq.symm
        · -- the longer name has two dots
          have hcount := hsuffix.sublist.count_le '.'
          simp [count_eq_zero_of_not_mem hx] at hcount
      · rintro rfl
        exact .inl rfl
  induction row with
  | nil => rfl
  | cons cell row ih =>
    rw [findBare, qualifyRow, map_cons, find?_cons,
      hcell cell.1 (hrow cell mem_cons_self), lookup_cons,
      ← ih fun c hc => hrow c (mem_cons_of_mem _ hc)]
    cases column == cell.1 <;> rfl

/-! ### A query with one join -/

/-- A query with one join over two tables that it calls by different names. It joins on a column
of each; that of the left table may stand without its name. The query has no `LIMIT`. -/
structure JoinQuery where
  ext : Externals
  /-- `max_query_candidates`. -/
  max : Nat
  db : Database
  decrypt : Bool
  plan : SelectPlan
  join : JoinClause
  left : Table
  right : Table
  column : Str
  key : Str
  joins : plan.joins = [join]
  unlimited : plan.limit = none
  left_table : db.table plan.table = .ok left
  right_table : db.table join.table = .ok right
  /-- A table has columns, and the cells of a row are under column names. -/
  columns : right.schema.fields ≠ []
  named : ∀ p ∈ left.rows, ∀ cell ∈ p.2, '.' ∉ cell.1
  qualifier_plain : '.' ∉ plan.qualifier
  alias_plain : '.' ∉ join.aliasName
  distinct : plan.qualifier ≠ join.aliasName
  column_plain : '.' ∉ column
  key_plain : '.' ∉ key
  on : ∃ name ∈ [column, plan.qualifier ++ '.' :: column],
    (join.leftCol = name ∧ join.rightCol = join.aliasName ++ '.' :: key) ∨
      (join.leftCol = join.aliasName ++ '.' :: key ∧ join.rightCol = name)
  /-- The checks of the query pass. -/
  ordered : validateOrder left.schema plan = .ok ()
  unencrypted : validateEncryptedJoins db left.schema plan = .ok ()

namespace JoinQuery

variable (q : JoinQuery)

def lefts : List Row := q.left.rows.map Prod.snd

def rights : List Row := q.right.rows.map Prod.snd

/-- The columns of a left row that the query may see. -/
def seenLeft (l : Row) : Row := visibleRow q.left.schema q.decrypt l

/-- The columns of a right row that the query may see. -/
def seenRight (r : Row) : Row := visibleRow q.right.schema q.decrypt r

/-- The columns of a left row that the executor keeps. -/
def kept (l : Row) : Row := projectBase q.plan (q.seenLeft l)

/-- What the executor puts in the place of a right row. -/
def padding : Row := q.right.schema.fields.map fun f => (f.name, [])

/-- The value of the join column, `none` for `NULL`. -/
def leftKey (l : Row) : Option Str := (q.seenLeft l).lookup q.column

def rightKey (r : Row) : Option Str := (q.seenRight r).lookup q.key

/-- The join column as the executor compares it. -/
def leftText (l : Row) : Str := (q.leftKey l).getD []

def rightText (r : Row) : Str := (q.rightKey r).getD []

/-! ### Meaning -/

/-- The side that a condition is about: that of its qualifier, or both. -/
def side (c : Condition) (l r : Row) : Row :=
  if (q.plan.qualifier ++ ['.']).isPrefixOf c.field then qualifyRow q.plan.qualifier l
  else if (q.join.aliasName ++ ['.']).isPrefixOf c.field then qualifyRow q.join.aliasName r
  else qualifyRow q.plan.qualifier l ++ qualifyRow q.join.aliasName r

/-- The filter on a left and a right row, each condition on its own side. -/
def holds (l r : Row) : Bool :=
  q.plan.conditions.all fun w =>
    w.alternatives.any fun c => joinedRowMatchesCondition q.ext (q.side c l r) c

/-- The join columns have one value. -/
def related (l r : Row) : Bool :=
  (q.leftKey l).any fun v => q.rightKey r == some v

/-- A left row as it goes into the result. -/
def base (l : Row) : Joined := baseJoined q.plan q.left.schema q.decrypt l

/-- A left row with a right row. -/
def paired (l r : Row) : Joined := (q.base l).extend q.join q.right.schema q.decrypt r

/-- The left row of a left join that is related to no right row, with no right columns. -/
def unmatched (l : Row) : Option Joined :=
  if q.join.joinType = .left ∧ (∀ r ∈ q.rights, q.related l r = false) ∧
    q.holds (q.seenLeft l) [] = true then some (q.base l) else none

/-- **The meaning of the query**: the related pairs that meet the filter, and for a left join the
left rows without a partner that do, with nulls on the right. -/
def meaning : List Joined :=
  outerJoin q.paired (fun l r => q.related l r && q.holds (q.seenLeft l) (q.seenRight r))
    q.unmatched q.lefts q.rights

/-- The executor's shortcuts do not show. Rows with the same text in the join columns are related
and have a verdict of the filter that does not depend on a dropped column, or they fail it; in a
left join no left row without a partner meets the filter, neither with nulls on the right nor,
where its text is met by no right row, with empty texts. -/
def Exact : Prop :=
  (∀ l ∈ q.lefts, ∀ r ∈ q.rights, q.leftText l = q.rightText r →
    q.holds (q.kept l) (q.seenRight r) =
      (q.related l r && q.holds (q.seenLeft l) (q.seenRight r))) ∧
  (q.join.joinType = .left → ∀ l ∈ q.lefts, (∀ r ∈ q.rights, q.related l r = false) →
    q.holds (q.seenLeft l) [] = false ∧
      ((∀ r ∈ q.rights, q.leftText l ≠ q.rightText r) → q.holds (q.kept l) q.padding = false))

/-! ### Conditions on the tables and the query -/

/-- How many rows the join makes. -/
def joinedCount : Nat :=
  (q.lefts.map fun l =>
    match q.rights.countP (q.leftText l == q.rightText ·) with
    | 0 => if q.join.joinType = .left then 1 else 0
    | n + 1 => n + 1).sum

/-- The tables and the rows that the join makes are not more than a query may look at. -/
def Fits : Prop := q.lefts.length ≤ q.max ∧ q.rights.length ≤ q.max ∧ q.joinedCount ≤ q.max

/-- The query returns the rows that are meant, each as often as it should. -/
def Meant : Prop :=
  ∃ rows, tableSelect q.ext q.max q.db q.decrypt q.plan = .ok rows ∧ rows.Perm q.meaning

/-- A condition may read a column of the left table: by its name, under the qualifier, or by a path
into it. -/
def Reads (c : Condition) (name : Str) : Prop :=
  c.field = name ∨ c.field = q.plan.qualifier ++ '.' :: name ∨
    ∃ path, c.field = q.plan.qualifier ++ '.' :: (name ++ '.' :: path)

/-- Tables and a query on which the executor's shortcuts do not matter. -/
structure Plain : Prop where
  /-- Rows with the same text in the join columns have a value there: no `NULL` meets `NULL` or
  the empty text. -/
  keyed : ∀ l ∈ q.lefts, ∀ r ∈ q.rights, q.leftText l = q.rightText r →
    (q.leftKey l).isSome = true ∧ (q.rightKey r).isSome = true
  /-- The columns of the left table that the filter reads are kept. -/
  seen : ∀ w ∈ q.plan.conditions, ∀ c ∈ w.alternatives, ∀ l ∈ q.lefts, ∀ cell ∈ q.seenLeft l,
    q.Reads c cell.1 → keepsColumn q.plan cell.1 = true
  /-- Every row of a left join has a partner. -/
  matched : q.join.joinType = .left → ∀ l ∈ q.lefts, ∃ r ∈ q.rights, q.related l r = true

variable {q}

/-! ### Conditions -/

/-- **A condition is evaluated on its own side.** -/
theorem matches_eq_side (l r : Row) (c : Condition) :
    joinedRowMatchesCondition q.ext
        (qualifyRow q.plan.qualifier l ++ qualifyRow q.join.aliasName r) c =
      joinedRowMatchesCondition q.ext (q.side c l r) c := by
  have hbare : ∀ {name : Str}, '.' ∉ name → ∀ (other : Str) (row : Row),
      (qualifyRow other row).lookup name = none := by
    intro name hname other row
    refine lookup_qualifyRow_none row ?_
    rintro x rfl
    exact hname (by simp)
  rw [side]
  split
  · next hleft =>
      obtain ⟨x, hx⟩ := isPrefixOf_qualified hleft
      have hright : ∀ y, (qualifyRow q.join.aliasName r).lookup (q.plan.qualifier ++ '.' :: y) =
          none := by
        intro y
        refine lookup_qualifyRow_none r fun z heq => ?_
        exact q.distinct (qualified_inj q.qualifier_plain q.alias_plain heq)
      refine joinedRowMatchesCondition_congr (by simp [hx]) ?_ ?_
      · rw [hx, lookup_append, hright, Option.or_none]
      · intro u v hu
        rw [lookup_append]
        rcases prefix_of_qualified q.qualifier_plain (hx.symm.trans hu) with rfl | ⟨y, rfl⟩
        · rw [hbare q.qualifier_plain q.join.aliasName, Option.or_none]
        · rw [hright, Option.or_none]
  split
  · next hright =>
      obtain ⟨x, hx⟩ := isPrefixOf_qualified hright
      have hleft : ∀ y, (qualifyRow q.plan.qualifier l).lookup (q.join.aliasName ++ '.' :: y) =
          none := by
        intro y
        refine lookup_qualifyRow_none l fun z heq => ?_
        exact q.distinct (qualified_inj q.alias_plain q.qualifier_plain heq).symm
      refine joinedRowMatchesCondition_congr (by simp [hx]) ?_ ?_
      · rw [hx, lookup_append, hleft, Option.none_or]
      · intro u v hu
        rw [lookup_append]
        rcases prefix_of_qualified q.alias_plain (hx.symm.trans hu) with rfl | ⟨y, rfl⟩
        · rw [hbare q.alias_plain q.plan.qualifier, Option.none_or]
        · rw [hleft, Option.none_or]
  · rfl

theorem joinedRowMatches_eq_holds (l r : Row) :
    joinedRowMatches q.ext (qualifyRow q.plan.qualifier l ++ qualifyRow q.join.aliasName r)
      q.plan.conditions = q.holds l r := by
  rw [joinedRowMatches, holds, funext (matches_eq_side l r)]

/-! ### Join keys -/

theorem mem_foldl_keepColumn {row : Row} (names : List Str) : ∀ {kept : Row},
    (∀ cell ∈ kept, cell ∈ row) → ∀ cell ∈ names.foldl (keepColumn row) kept, cell ∈ row := by
  induction names with
  | nil => exact fun h => h
  | cons name names ih =>
    intro kept h
    refine ih ?_
    intro cell hcell
    rw [keepColumn] at hcell
    split at hcell
    · next hrow =>
        rcases mem_append.mp hcell with hold | hnew
        · exact h cell hold
        · rw [mem_singleton.mp hnew]
          exact KeyedList.mem_of_lookup hrow
    · exact h cell hcell

theorem seenLeft_named {l : Row} (hl : l ∈ q.lefts) : ∀ cell ∈ q.seenLeft l, '.' ∉ cell.1 := by
  intro cell hcell
  obtain ⟨p, hp, rfl⟩ := mem_map.mp hl
  exact q.named p hp cell (mem_of_mem_filter hcell)

theorem kept_named {l : Row} (hl : l ∈ q.lefts) : ∀ cell ∈ q.kept l, '.' ∉ cell.1 := by
  intro cell hcell
  refine seenLeft_named hl cell (mem_foldl_keepColumn _ ?_ cell hcell)
  intro c hc
  rw [projectRowFields] at hc
  repeat' split at hc
  all_goals first
    | exact hc
    | exact mem_of_mem_filter hc

/-- What the executor makes of a left row without a partner. -/
def padded (q : JoinQuery) (l : Row) : Option Joined :=
  if q.join.joinType = .left ∧ (∀ r ∈ q.rights, q.leftText l ≠ q.rightText r) ∧
    q.holds (q.kept l) q.padding = true then some ((q.base l).pad q.join q.right.schema) else none

end JoinQuery

/-! ### The rows that are meant -/

namespace JoinQuery

variable (q : JoinQuery)

/-- A condition does not notice that columns were dropped which it does not read. -/
theorem matches_kept {l : Row} (hl : l ∈ q.lefts) (r : Row) {c : Condition}
    (hreads : ∀ cell ∈ q.seenLeft l, q.Reads c cell.1 → keepsColumn q.plan cell.1 = true) :
    joinedRowMatchesCondition q.ext (qualifyRow q.plan.qualifier (q.kept l) ++ r) c =
      joinedRowMatchesCondition q.ext (qualifyRow q.plan.qualifier (q.seenLeft l) ++ r) c := by
  have hkept : ∀ y, q.Reads c y → (q.kept l).lookup y = (q.seenLeft l).lookup y := by
    intro y hy
    rw [kept, lookup_projectBase]
    split
    · rfl
    · next hdropped =>
        refine Eq.symm (lookup_eq_none_iff.mpr fun cell hcell => bne_iff_ne.mpr ?_)
        rintro rfl
        exact hdropped (hreads cell hcell hy)
  have hcells : ∀ u, (∀ y, u = q.plan.qualifier ++ '.' :: y → q.Reads c y) →
      (qualifyRow q.plan.qualifier (q.kept l)).lookup u =
        (qualifyRow q.plan.qualifier (q.seenLeft l)).lookup u := by
    intro u hu
    by_cases hqualified : ∃ y, u = q.plan.qualifier ++ '.' :: y
    · obtain ⟨y, rfl⟩ := hqualified
      rw [lookup_qualifyRow_self, lookup_qualifyRow_self, hkept y (hu y rfl)]
    · have hnot : ∀ y, u ≠ q.plan.qualifier ++ '.' :: y := fun y hy => hqualified ⟨y, hy⟩
      rw [lookup_qualifyRow_none _ hnot, lookup_qualifyRow_none _ hnot]
  by_cases hdot : '.' ∈ c.field
  · refine joinedRowMatchesCondition_congr hdot ?_ ?_
    · rw [lookup_append, lookup_append, hcells c.field fun y hy => .inr (.inl hy)]
    · intro u v hu
      rw [lookup_append, lookup_append, hcells u]
      rintro y rfl
      exact .inr (.inr ⟨v, by rw [hu, append_assoc]; rfl⟩)
  · rw [joinedRowMatchesCondition, joinedRowMatchesCondition, if_neg hdot, if_neg hdot,
      findBare_append, findBare_append,
      findBare_qualifyRow hdot mem_cons_self (kept_named hl),
      findBare_qualifyRow hdot mem_cons_self (seenLeft_named hl), hkept _ (.inl rfl)]

/-- Nor does the filter of a plain query. -/
theorem Plain.holds_kept {q : JoinQuery} (h : q.Plain) {l : Row} (hl : l ∈ q.lefts) (r : Row) :
    q.holds (q.kept l) r = q.holds (q.seenLeft l) r := by
  rw [← joinedRowMatches_eq_holds, ← joinedRowMatches_eq_holds, joinedRowMatches,
    joinedRowMatches, Bool.eq_iff_iff, all_eq_true, all_eq_true]
  refine forall₂_congr fun w hw => ?_
  rw [any_eq_true, any_eq_true]
  refine exists_congr fun c => and_congr_right fun hc => ?_
  rw [q.matches_kept hl _ (h.seen w hw c hc l hl)]

theorem related_iff (l r : Row) : q.related l r = true ↔
    q.leftText l = q.rightText r ∧ (q.leftKey l).isSome = true ∧ (q.rightKey r).isSome = true := by
  rw [related, leftText, rightText]
  rcases q.leftKey l with - | v <;> rcases q.rightKey r with - | w <;> simp
  exact eq_comm

/-- The shortcuts do not show in a plain query. -/
theorem Plain.exact {q : JoinQuery} (h : q.Plain) : q.Exact := by
  refine ⟨?_, ?_⟩
  · intro l hl r hr htext
    rw [(q.related_iff l r).mpr ⟨htext, h.keyed l hl r hr htext⟩, h.holds_kept hl, Bool.true_and]
  · intro hleft l hl hnone
    obtain ⟨r, hr, hrelated⟩ := h.matched hleft l hl
    rw [hnone r hr] at hrelated
    cases hrelated

/-- Without conditions a query whose shortcuts do not show is plain. -/
theorem Exact.plain {q : JoinQuery} (h : q.Exact) (hfilter : q.plan.conditions = []) : q.Plain := by
  have hholds : ∀ l r, q.holds l r = true := by
    intro l r
    rw [holds, hfilter]
    rfl
  refine ⟨?_, ?_, ?_⟩
  · intro l hl r hr htext
    have hboth := h.1 l hl r hr htext
    rw [hholds, hholds, Bool.and_true] at hboth
    exact ((q.related_iff l r).mp hboth.symm).2
  · intro w hw
    rw [hfilter] at hw
    cases hw
  · intro hleft l hl
    by_contra hnone
    have hrelated : ∀ r ∈ q.rights, q.related l r = false := by
      intro r hr
      exact (Bool.not_eq_true _).mp fun htrue => hnone ⟨r, hr, htrue⟩
    have hempty := (h.2 hleft l hl hrelated).1
    rw [hholds] at hempty
    cases hempty

end JoinQuery

end Lux
