import Lux.Grants

/-!
# The text of a grant, read back

`render_enforced_clauses` writes a grant as filter text, and the tokenizer and the condition
parser read it back. `GrantFilter` is the list of conditions the text stands for, either all of
them or alternatives; `grantFilter` follows the rendering branch by branch.

* `renderEnforcedClauses_eq`: the text is the text of that filter;
* `GrantFilter.parse_tokens`: for plain columns and values it is read back as that filter.
-/

namespace Lux

open StdText TokenStream List

/-! ### Conditions as chunks of text -/

/-- A token that is written as it is. -/
abbrev word (w : Str) : Str × Str := (w, w)

/-- The text of a comparison operator. -/
def opText : CmpOp → Str
  | .eq => ['=']
  | .ne => ['!', '=']
  | .gt => ['>']
  | .lt => ['<']
  | .ge => ['>', '=']
  | .le => ['<', '=']
  | _ => []

/-- The chunks of a value list. -/
def listChunks (values : List Str) : List (Str × Str) :=
  word (str "(") :: values.map (fun v => (quoteWhereValue v, v)) ++ [word (str ")")]

/-- The chunks of a condition as a grant writes it. -/
def condChunks (c : Condition) : List (Str × Str) :=
  match c.op with
  | .isNull => [word c.field, word (str "IS"), word (str "NULL")]
  | .isNotNull => [word c.field, word (str "IS"), word (str "NOT"), word (str "NULL")]
  | .inList => word c.field :: word (str "IN") :: listChunks c.values
  | .notIn => word c.field :: word (str "NOT") :: word (str "IN") :: listChunks c.values
  | op => [word c.field, word (opText op), (quoteWhereValue c.value, c.value)]

/-- The tokens of a condition. -/
def condTokens (c : Condition) : List Str := (condChunks c).map Prod.snd

/-- A column name that is one token and no keyword. -/
def PlainColumn (col : Str) : Prop := PlainWord col ∧ isKeyword col = false

/-- The shapes of conditions a grant writes, over plain columns and without `)` among the values
of a list. -/
inductive Renderable : Condition → Prop
  | cmp {col : Str} (op : GrantOp) (value : Str) (hcol : PlainColumn col) :
      Renderable (.single col op.cmpOp value)
  | null {col : Str} (hcol : PlainColumn col) : Renderable (.single col .isNull [])
  | notNull {col : Str} (hcol : PlainColumn col) : Renderable (.single col .isNotNull [])
  | list {col : Str} (negated : Bool) (values : List Str) (hcol : PlainColumn col)
      (hne : values ≠ []) (hparen : str ")" ∉ values) :
      Renderable (.list col (if negated then .notIn else .inList) values)

/-- A value list that looks like a subquery. -/
def startsSelect (c : Condition) : Bool :=
  c.values.head?.any (eqIgnoreAsciiCase · (str "SELECT"))

/-- The error for such a list. -/
def subqueryError : Str :=
  str "ERR subqueries (IN ( SELECT ... )) are only supported in grant predicates, not in a query WHERE"

theorem lexesTo_grantOp (op : GrantOp) : LexesTo op.text op.text := by
  cases op
  · exact lexesTo_operator (.inl rfl)
  · exact lexesTo_operatorEq (.inl rfl)
  · exact lexesTo_operator (.inr (.inr rfl))
  · exact lexesTo_operator (.inr (.inl rfl))
  · exact lexesTo_operatorEq (.inr (.inr rfl))
  · exact lexesTo_operatorEq (.inr (.inl rfl))

theorem condChunks_cmp (col : Str) (op : GrantOp) (value : Str) :
    condChunks (.single col op.cmpOp value) =
      [word col, word op.text, (quoteWhereValue value, value)] := by
  cases op <;> rfl

/-- The chunks a grant writes: words, operators and quoted values. -/
inductive GrantChunk : Str × Str → Prop
  | word {w : Str} (hw : PlainWord w) : GrantChunk (word w)
  | op (op : GrantOp) : GrantChunk (word op.text)
  | quoted (v : Str) : GrantChunk (quoteWhereValue v, v)

theorem GrantChunk.lexesTo {chunk : Str × Str} (h : GrantChunk chunk) :
    LexesTo chunk.1 chunk.2 := by
  cases h with
  | word hw => exact lexesTo_word hw
  | op op => exact lexesTo_grantOp op
  | quoted v => exact lexesTo_quoted v

/-- A text with something at either end. -/
def Solid (s : Str) : Prop :=
  s ≠ [] ∧ (∀ c ∈ s.head?, isWhitespace c = false) ∧ ∀ c ∈ s.getLast?, isWhitespace c = false

/-- A text without white space is solid. -/
theorem solid_of_all {s : Str} (hne : s ≠ [])
    (hall : (s.all fun c => !isWhitespace c) = true) : Solid s := by
  have hchars : ∀ c ∈ s, isWhitespace c = false := by
    intro c hc
    simpa using all_eq_true.mp hall c hc
  exact ⟨hne, fun c hc => hchars c (mem_of_mem_head? hc),
    fun c hc => hchars c (mem_of_mem_getLast? hc)⟩

theorem GrantChunk.solid {chunk : Str × Str} (h : GrantChunk chunk) : Solid chunk.1 := by
  cases h with
  | @word w hw =>
    refine solid_of_all hw.1 (all_eq_true.mpr ?_)
    intro c hc
    have hword := hw.2.2 c hc
    simp only [wordChar, Bool.and_eq_true] at hword
    exact hword.1.1.1
  | op op => cases op <;> exact solid_of_all (by decide) (by decide)
  | quoted v =>
    have hquote : isWhitespace '\'' = false := by decide
    refine ⟨by simp [quoteWhereValue], ?_, ?_⟩
    · intro c hc
      cases hc
      exact hquote
    · intro c hc
      have hlast : (quoteWhereValue v).getLast? = some '\'' := by
        rw [quoteWhereValue, getLast?_append]
        rfl
      rw [hlast] at hc
      cases hc
      exact hquote

/-- The fixed words of a condition are words. -/
theorem grantChunk_fixed {w : Str} (hw : w ∈ [str "IS", str "NULL", str "NOT", str "IN",
    str "AND", str "OR", str "(", str ")"]) : GrantChunk (word w) := by
  apply GrantChunk.word
  simp only [mem_cons, not_mem_nil, or_false] at hw
  rcases hw with rfl | rfl | rfl | rfl | rfl | rfl | rfl | rfl <;>
    exact plainWord_of_all (by decide) (by decide) (by decide)

theorem grantChunk_listChunks (values : List Str) : ∀ c ∈ listChunks values, GrantChunk c := by
  intro c hc
  simp only [listChunks, cons_append, mem_cons, mem_append, mem_map, not_mem_nil, or_false] at hc
  rcases hc with rfl | ⟨v, -, rfl⟩ | rfl
  · exact grantChunk_fixed (by simp)
  · exact .quoted v
  · exact grantChunk_fixed (by simp)

/-- What the chunks of a condition are. -/
theorem grantChunk_condChunks {c : Condition} (hc : Renderable c) :
    ∀ chunk ∈ condChunks c, GrantChunk chunk := by
  cases hc with
  | cmp op value hcol =>
    rw [condChunks_cmp]
    intro chunk hmem
    simp only [mem_cons, not_mem_nil, or_false] at hmem
    rcases hmem with rfl | rfl | rfl
    · exact .word hcol.1
    · exact .op op
    · exact .quoted value
  | null hcol =>
    intro chunk hmem
    simp only [condChunks, Condition.single, mem_cons, not_mem_nil, or_false] at hmem
    rcases hmem with rfl | rfl | rfl
    · exact .word hcol.1
    · exact grantChunk_fixed (by simp)
    · exact grantChunk_fixed (by simp)
  | notNull hcol =>
    intro chunk hmem
    simp only [condChunks, Condition.single, mem_cons, not_mem_nil, or_false] at hmem
    rcases hmem with rfl | rfl | rfl | rfl
    · exact .word hcol.1
    · exact grantChunk_fixed (by simp)
    · exact grantChunk_fixed (by simp)
    · exact grantChunk_fixed (by simp)
  | list negated values hcol hne hparen =>
    intro chunk hmem
    cases negated <;>
      simp only [condChunks, Condition.list, if_true, Bool.false_eq_true, if_false,
        mem_cons] at hmem
    · rcases hmem with rfl | rfl | hmem
      · exact .word hcol.1
      · exact grantChunk_fixed (by simp)
      · exact grantChunk_listChunks values chunk hmem
    · rcases hmem with rfl | rfl | rfl | hmem
      · exact .word hcol.1
      · exact grantChunk_fixed (by simp)
      · exact grantChunk_fixed (by simp)
      · exact grantChunk_listChunks values chunk hmem

/-! ### Conditions read back -/

/-- A value list is read back, unless it looks like a subquery. -/
theorem parseInList_listChunks {values : List Str} (hne : values ≠ []) (hparen : str ")" ∉ values)
    (more : List Str) :
    parseInList ((listChunks values).map Prod.snd ++ more) =
      if values.head?.any (eqIgnoreAsciiCase · (str "SELECT")) then .error subqueryError
      else .ok (values, more) := by
  have htokens : (listChunks values).map Prod.snd ++ more =
      str "(" :: (values ++ str ")" :: more) := by
    simp [listChunks, Function.comp_def]
  have hall : ∀ v ∈ values, (v != str ")") = true := by
    intro v hv
    simpa using fun heq : v = str ")" => hparen (heq ▸ hv)
  have hhead : (values ++ str ")" :: more).head? = values.head? := by
    obtain ⟨v, vs, rfl⟩ := exists_cons_of_ne_nil hne
    rfl
  have htake : (values ++ str ")" :: more).takeWhile (· != str ")") = values := by
    rw [takeWhile_append_of_pos hall]; simp
  have hdrop : (values ++ str ")" :: more).dropWhile (· != str ")") = str ")" :: more := by
    rw [dropWhile_append_of_pos hall]; simp
  rw [htokens, parseInList, hhead, htake, hdrop]
  simp only [if_neg hne]
  rfl

/-- **A condition is read back from its tokens**, whatever follows them. -/
theorem parseWhereCondition_condTokens {c : Condition} (hc : Renderable c) (more : List Str) :
    parseWhereCondition (condTokens c ++ more) =
      if startsSelect c then .error subqueryError else .ok (c, more) := by
  cases hc with
  | cmp op value hcol =>
    cases op <;> rfl
  | null hcol => rfl
  | notNull hcol => rfl
  | @list col negated values hcol hne hparen =>
    have hlist := parseInList_listChunks hne hparen more
    have hstart : startsSelect (.list col (if negated then .notIn else .inList) values) =
        values.head?.any (eqIgnoreAsciiCase · (str "SELECT")) := rfl
    rw [hstart]
    cases negated
    · show parseWhereCondition (col :: str "IN" :: ((listChunks values).map Prod.snd ++ more)) = _
      have hin : toUppercase (str "IN") = str "IN" := by decide
      simp only [parseWhereCondition, if_pos hin, hlist]
      split <;> rfl
    · show parseWhereCondition (col :: str "NOT" :: str "IN" ::
        ((listChunks values).map Prod.snd ++ more)) = _
      have hnot : toUppercase (str "NOT") = str "NOT" := by decide
      have hne' : toUppercase (str "NOT") ≠ str "IN" := by decide
      have hin : eqIgnoreAsciiCase (str "IN") (str "IN") = true := by decide
      simp only [parseWhereCondition, if_neg hne', if_pos hnot, if_pos hin, hlist]
      split <;> rfl

/-! ### Conditions joined by a word -/

/-- The chunks of conditions with a word between them. -/
def joinChunks (w : Str) : List Condition → List (Str × Str)
  | [] => []
  | [c] => condChunks c
  | c :: d :: cs => condChunks c ++ word w :: joinChunks w (d :: cs)

/-- The tokens of conditions with a word between them. -/
def joinTokens (w : Str) (cs : List Condition) : List Str := (joinChunks w cs).map Prod.snd

theorem condChunks_eq_cons (c : Condition) : ∃ rest, condChunks c = word c.field :: rest := by
  unfold condChunks
  split <;> exact ⟨_, rfl⟩

theorem joinTokens_cons (w : Str) (c d : Condition) (cs : List Condition) :
    joinTokens w (c :: d :: cs) = condTokens c ++ w :: joinTokens w (d :: cs) := by
  simp [joinTokens, joinChunks, condTokens]

theorem joinTokens_eq_cons (w : Str) {cs : List Condition} (hne : cs ≠ []) :
    ∃ c ∈ cs, ∃ rest, joinTokens w cs = c.field :: rest := by
  obtain ⟨c, cs, rfl⟩ := exists_cons_of_ne_nil hne
  obtain ⟨rest, hrest⟩ := condChunks_eq_cons c
  refine ⟨c, by simp, ?_⟩
  cases cs with
  | nil => exact ⟨rest.map Prod.snd, by simp [joinTokens, joinChunks, hrest]⟩
  | cons d cs =>
    exact ⟨_, by rw [joinTokens_cons, condTokens, hrest]; rfl⟩

theorem grantChunk_joinChunks {w : Str} (hw : GrantChunk (word w)) (cs : List Condition)
    (hcs : ∀ c ∈ cs, Renderable c) : ∀ chunk ∈ joinChunks w cs, GrantChunk chunk := by
  induction cs with
  | nil => intro chunk h; cases h
  | cons c cs ih =>
    have hc := grantChunk_condChunks (hcs c (by simp))
    cases cs with
    | nil => exact hc
    | cons d cs =>
      intro chunk hmem
      rw [joinChunks, mem_append, mem_cons] at hmem
      rcases hmem with h | rfl | h
      · exact hc chunk h
      · exact hw
      · exact ih (fun e he => hcs e (by simp [he])) chunk h

variable (cs : List Condition)

/-- **A conjunction is read back.** -/
theorem parseWhereConditions_and (hcs : ∀ c ∈ cs, Renderable c) :
    parseWhereConditions (joinTokens (str "AND") cs) =
      if cs.any startsSelect then .error subqueryError else .ok (cs.map .one) := by
  have hor : isOr (str "AND") = false := by decide
  have hand : isAnd (str "AND") = true := by decide
  -- one conjunct, in front of an `AND` or of nothing
  have hone : ∀ c, Renderable c → ∀ more, more = [] ∨ (∃ rest, more = str "AND" :: rest) →
      parseConjunct (condTokens c ++ more) =
        if startsSelect c then .error subqueryError else .ok (.one c, more.tail) := by
    intro c hc more hmore
    rw [parseConjunct, parseWhereOrGroup, sepBy1, parseWhereCondition_condTokens hc]
    split
    · rfl
    · rcases hmore with rfl | ⟨rest, rfl⟩
      · rfl
      · simp only [bind, Except.bind, sepTail_stop hor, mkGroup, skipAnd, hand, if_true, tail_cons]
  have hnil : ∀ (c : Condition) more, condTokens c ++ more ≠ [] := by
    intro c more
    obtain ⟨rest, hrest⟩ := condChunks_eq_cons c
    simp [condTokens, hrest]
  induction cs with
  | nil => rfl
  | cons c cs ih =>
    -- the first condition, and an `AND` with the others if there are any
    obtain ⟨more, hmore, hjoin, htail⟩ : ∃ more, (more = [] ∨ ∃ rest, more = str "AND" :: rest) ∧
        joinTokens (str "AND") (c :: cs) = condTokens c ++ more ∧
          more.tail = joinTokens (str "AND") cs := by
      cases cs with
      | nil => exact ⟨[], .inl rfl, (append_nil _).symm, rfl⟩
      | cons d cs => exact ⟨_, .inr ⟨_, rfl⟩, joinTokens_cons _ c d cs, rfl⟩
    have hread := hone c (hcs c (by simp)) more hmore
    have hrest := ih (fun e he => hcs e (by simp [he]))
    rw [parseWhereConditions] at hrest ⊢
    rw [hjoin, any_cons]
    by_cases hsel : startsSelect c = true
    · rw [if_pos hsel] at hread
      rw [repeatAll_of_error parseConjunct_consumes (hnil c more) hread]
      simp [hsel]
    · rw [if_neg hsel, htail] at hread
      rw [repeatAll_of_ok parseConjunct_consumes (hnil c more) hread, hrest]
      rw [Bool.not_eq_true] at hsel
      rw [hsel, Bool.false_or]
      split <;> rfl

section Joined

variable {α : Type} {isSep : Str → Bool} {p : Parser Str Str α} {w : Str}

/-- Conditions with a separator between them, among which is a subquery. -/
theorem sepBy1_joinTokens_fails (read : Condition → α) (hp : Consumes p) (hw : isSep w = true)
    {cs : List Condition}
    (hfail : ∀ c ∈ cs, startsSelect c = true → ∀ more,
      p (condTokens c ++ more) = .error subqueryError)
    (hread : ∀ c ∈ cs, startsSelect c = false → ∀ more,
      p (condTokens c ++ w :: more) = .ok (read c, w :: more))
    (hsel : cs.any startsSelect = true) (more : List Str) :
    sepBy1 isSep p (joinTokens w cs ++ more) = .error subqueryError := by
  induction cs with
  | nil => cases hsel
  | cons c cs ih =>
    have hc := hread c mem_cons_self
    by_cases hfirst : startsSelect c = true
    · have hbad := hfail c mem_cons_self hfirst
      cases cs with
      | nil => exact sepBy1_of_error (hbad more)
      | cons d cs =>
        rw [joinTokens_cons, append_assoc]
        exact sepBy1_of_error (hbad _)
    rw [Bool.not_eq_true] at hfirst
    rw [any_cons, hfirst] at hsel
    cases cs with
    | nil => cases hsel
    | cons d cs =>
      rw [joinTokens_cons, append_assoc, cons_append, sepBy1_of_item (hc hfirst _),
        sepTail_step hp hw, ih (fun e he => hfail e (mem_cons_of_mem _ he))
          (fun e he => hread e (mem_cons_of_mem _ he)) hsel]
      rfl

/-- Conditions with a separator between them, none of them a subquery. -/
theorem sepBy1_joinTokens (read : Condition → α) (hp : Consumes p) (hw : isSep w = true)
    {cs : List Condition}
    (hread : ∀ c ∈ cs, startsSelect c = false → ∀ more,
      p (condTokens c ++ w :: more) = .ok (read c, w :: more))
    (hlast : ∀ c ∈ cs, startsSelect c = false → p (condTokens c) = .ok (read c, []))
    (hne : cs ≠ []) (hsel : cs.any startsSelect = false) :
    sepBy1 isSep p (joinTokens w cs) = .ok (cs.map read, []) := by
  induction cs with
  | nil => exact absurd rfl hne
  | cons c cs ih =>
    rw [any_cons, Bool.or_eq_false_iff] at hsel
    cases cs with
    | nil =>
      have hitem : p (joinTokens w [c]) = .ok (read c, []) := hlast c mem_cons_self hsel.1
      rw [sepBy1_of_item hitem]
      rfl
    | cons d cs =>
      rw [joinTokens_cons, sepBy1_of_item (hread c mem_cons_self hsel.1 _),
        sepTail_step hp hw, ih (fun e he => hread e (mem_cons_of_mem _ he))
          (fun e he => hlast e (mem_cons_of_mem _ he)) (cons_ne_nil _ _) hsel.2]
      rfl

end Joined

/-- Alternatives among which is a subquery. -/
theorem sepBy1_joinOr_fails {cs : List Condition} (hcs : ∀ c ∈ cs, Renderable c)
    (hsel : cs.any startsSelect = true) (more : List Str) :
    sepBy1 isOr parseWhereCondition (joinTokens (str "OR") cs ++ more) = .error subqueryError := by
  refine sepBy1_joinTokens_fails id parseWhereCondition_consumes (by decide)
    (fun c hc hselect more => ?_) (fun c hc hselect more => ?_) hsel more
  · rw [parseWhereCondition_condTokens (hcs c hc), if_pos hselect]
  · rw [parseWhereCondition_condTokens (hcs c hc), hselect]
    rfl

/-- The alternatives of a group are read back. -/
theorem sepBy1_or (hne : cs ≠ []) (hcs : ∀ c ∈ cs, Renderable c) :
    sepBy1 isOr parseWhereCondition (joinTokens (str "OR") cs) =
      if cs.any startsSelect then .error subqueryError else .ok (cs, []) := by
  split
  next hsel => rw [← sepBy1_joinOr_fails hcs hsel [], append_nil]
  next hsel =>
    have hitem : ∀ c ∈ cs, startsSelect c = false → ∀ more,
        parseWhereCondition (condTokens c ++ more) = .ok (id c, more) := by
      intro c hc hselect more
      rw [parseWhereCondition_condTokens (hcs c hc), hselect]
      rfl
    rw [sepBy1_joinTokens id parseWhereCondition_consumes (by decide)
      (fun c hc hselect more => hitem c hc hselect _)
      (fun c hc hselect => by simpa using hitem c hc hselect []) hne (by simpa using hsel),
      map_id]

/-- **A group of alternatives is read back.** -/
theorem parseWhereConditions_or (hne : cs ≠ []) (hcs : ∀ c ∈ cs, Renderable c) :
    parseWhereConditions (joinTokens (str "OR") cs) =
      if cs.any startsSelect then .error subqueryError else .ok [mkGroup cs] := by
  have hgroup := sepBy1_or cs hne hcs
  obtain ⟨c, -, rest, htokens⟩ := joinTokens_eq_cons (str "OR") hne
  have hnil : joinTokens (str "OR") cs ≠ [] := by rw [htokens]; simp
  rw [parseWhereConditions]
  by_cases hsel : cs.any startsSelect = true
  · rw [if_pos hsel] at hgroup ⊢
    apply repeatAll_of_error parseConjunct_consumes hnil
    rw [parseConjunct, parseWhereOrGroup, hgroup]
    rfl
  · rw [if_neg hsel] at hgroup ⊢
    rw [repeatAll_of_ok parseConjunct_consumes hnil
      (parseConjunct_eq_ok.mpr ⟨cs, [], hgroup, rfl, rfl⟩)]
    rfl

/-! ### The filter a grant stands for -/

/-- A filter made of conditions that all hold, or of alternatives. -/
inductive GrantFilter where
  | all (cs : List Condition)
  | any (cs : List Condition)
deriving DecidableEq

namespace GrantFilter

/-- The conditions of a filter. -/
def conditions : GrantFilter → List Condition
  | .all cs => cs
  | .any cs => cs

/-- The filter as chunks of text. -/
def chunks : GrantFilter → List (Str × Str)
  | .all cs => joinChunks (str "AND") cs
  | .any cs => joinChunks (str "OR") cs

/-- The text of a filter. -/
def text (f : GrantFilter) : Str := chunkText f.chunks

/-- The filter as the parser returns it. -/
def clauses : GrantFilter → List WhereClause
  | .all cs => cs.map .one
  | .any cs => [mkGroup cs]

end GrantFilter

/-- The two conditions no row meets together. -/
def contradictory (column : Str) : List Condition :=
  [.single column .isNull [], .single column .isNotNull []]

/-- The conditions one enforced condition is written as. -/
def writtenConditions (qualifier : Option Str) : EnforcedCondition → List Condition
  | .inSet column negated [] =>
    if negated then [] else contradictory (qualifiedGrantColumn column qualifier)
  | c => [c.condition qualifier]

/-- The alternatives of an `OR` filter; `none` when one of them asks for nothing. -/
def branchConditions (qualifier : Option Str) : List GrantClause →
    Except Str (Option (List Condition))
  | [] => .ok (some [])
  | clause :: rest =>
    if clause.any isNever then branchConditions qualifier rest
    else match clause.flatMap (writtenConditions qualifier) with
      | [] => .ok none
      | [c] => do
        let branches ← branchConditions qualifier rest
        .ok (branches.map (c :: ·))
      | _ => .error (str "OR grants with multi-condition branches are not supported yet")

/-- The filter several alternatives are written as. -/
def orFilter (clauses : List GrantClause) (qualifier : Option Str) : Except Str GrantFilter :=
  match collapseSameColumnOrClauses clauses with
  | some cond => .ok (.all (writtenConditions qualifier cond))
  | none => do
    match ← branchConditions qualifier clauses with
    | none => .ok (.all [])
    | some [] =>
      match clauses.flatten with
      | [] => .ok (.all [])
      | first :: _ => .ok (.all (contradictory (qualifiedGrantColumn first.column qualifier)))
    | some cs => .ok (.any cs)

/-- The filter a grant is written as. -/
def grantFilter (clauses : List GrantClause) (qualifier : Option Str) : Except Str GrantFilter :=
  match clauses with
  | [clause] => .ok (.all (clause.flatMap (writtenConditions qualifier)))
  | _ => orFilter clauses qualifier

/-! ### Its text -/

theorem chunkText_append {as bs : List (Str × Str)} (ha : as ≠ []) (hb : bs ≠ []) :
    chunkText (as ++ bs) = chunkText as ++ ' ' :: chunkText bs := by
  obtain ⟨a, as, rfl⟩ := exists_cons_of_ne_nil ha
  obtain ⟨b, bs, rfl⟩ := exists_cons_of_ne_nil hb
  simp [chunkText, blankChunks]

theorem condChunks_ne_nil (c : Condition) : condChunks c ≠ [] := by
  obtain ⟨rest, h⟩ := condChunks_eq_cons c
  rw [h]; simp

theorem joinChunks_ne_nil (w : Str) (c : Condition) (cs : List Condition) :
    joinChunks w (c :: cs) ≠ [] := by
  cases cs with
  | nil => exact condChunks_ne_nil c
  | cons d cs => simp [joinChunks]

/-- Joining the texts of conditions by a word between blanks is the text of the joined chunks. -/
theorem join_condText (w : Str) (cs : List Condition) :
    join (' ' :: w ++ [' ']) (cs.map fun c => chunkText (condChunks c)) =
      chunkText (joinChunks w cs) := by
  induction cs with
  | nil => rfl
  | cons c cs ih =>
    cases cs with
    | nil => rfl
    | cons d cs =>
      have htail : chunkText (word w :: joinChunks w (d :: cs)) =
          w ++ ' ' :: chunkText (joinChunks w (d :: cs)) := by
        have h : chunkText ([word w] ++ joinChunks w (d :: cs)) = _ :=
          chunkText_append (by simp) (joinChunks_ne_nil w d cs)
        simpa [chunkText, blankChunks] using h
      rw [map_cons, map_cons, join, ← map_cons (f := fun c => chunkText (condChunks c)), ih,
        joinChunks, chunkText_append (condChunks_ne_nil c) (by simp), htail]
      simp

theorem join_quoted (v : Str) (vs : List Str) :
    join [' '] ((v :: vs).map quoteWhereValue) =
      quoteWhereValue v ++ blankChunks (vs.map fun v => (quoteWhereValue v, v)) := by
  induction vs generalizing v with
  | nil => simp [join, blankChunks]
  | cons u vs ih =>
    rw [map_cons, map_cons, join, ← map_cons, ih u]
    simp [blankChunks]

/-- The text of a condition. -/
def condText (c : Condition) : Str := chunkText (condChunks c)

/-- The joined texts of some things, if there are any. -/
def joined {β : Type} (sep : Str) (text : β → Str) : List β → Option Str
  | [] => none
  | c :: cs => some (join sep ((c :: cs).map text))

/-- One enforced condition is rendered as the text of the conditions it is written as. -/
theorem renderCondition_eq (qualifier : Option Str) (c : EnforcedCondition) :
    renderCondition qualifier c =
      joined (str " AND ") condText (writtenConditions qualifier c) := by
  cases c with
  | cmp column op value =>
    simp only [renderCondition, writtenConditions, EnforcedCondition.condition, joined,
      map_cons, map_nil, join, condText, condChunks_cmp]
    simp [chunkText, blankChunks]
  | inSet column negated values =>
    cases values with
    | nil =>
      cases negated
      · simp [renderCondition, writtenConditions, contradictory, contradiction, joined, condText,
          condChunks, Condition.single, chunkText, blankChunks, join, str]
      · rfl
    | cons v vs =>
      have hquoted := join_quoted v vs
      rw [map_cons] at hquoted
      cases negated <;>
        simp [renderCondition, writtenConditions, EnforcedCondition.condition, joined, join,
          hquoted, condText, condChunks, Condition.list, listChunks, chunkText,
          blankChunks, str]

theorem join_append (sep : Str) {as bs : List Str} (ha : as ≠ []) (hb : bs ≠ []) :
    join sep (as ++ bs) = join sep as ++ sep ++ join sep bs := by
  induction as with
  | nil => exact absurd rfl ha
  | cons a as ih =>
    cases as with
    | nil =>
      obtain ⟨b, bs, rfl⟩ := exists_cons_of_ne_nil hb
      rfl
    | cons c as =>
      have h := ih (by simp)
      simp only [cons_append] at h ⊢
      rw [join, h, join]
      simp

/-- Joining the joined texts of groups is joining all of them. -/
theorem join_filterMap (sep : Str) {α β : Type} (written : α → List β) (text : β → Str)
    (rendered : α → Option Str) (h : ∀ a, rendered a = joined sep text (written a))
    (parts : List α) :
    join sep (parts.filterMap rendered) = join sep ((parts.flatMap written).map text) ∧
      (parts.filterMap rendered = [] ↔ parts.flatMap written = []) := by
  induction parts with
  | nil => exact ⟨rfl, by simp⟩
  | cons a parts ih =>
    have ha := h a
    cases hw : written a with
    | nil =>
      rw [hw] at ha
      rw [filterMap_cons_none ha, flatMap_cons, hw]
      exact ih
    | cons c cs =>
      rw [hw] at ha
      rw [filterMap_cons_some ha, flatMap_cons, hw]
      refine ⟨?_, by simp⟩
      cases hrest : parts.filterMap rendered with
      | nil =>
        rw [ih.2.mp hrest]
        simp [join]
      | cons p ps =>
        have hne : parts.flatMap written ≠ [] := fun he => by
          rw [ih.2.mpr he] at hrest; cases hrest
        rw [map_append, join_append sep (by simp) (by simpa using hne), ← ih.1, hrest]
        rfl

theorem renderEnforcedClause_eq (conds : GrantClause) (qualifier : Option Str) :
    renderEnforcedClause conds qualifier =
      (GrantFilter.all (conds.flatMap (writtenConditions qualifier))).text := by
  rw [GrantFilter.text, GrantFilter.chunks, ← join_condText]
  exact (join_filterMap _ _ condText _ (renderCondition_eq qualifier) conds).1

/-- A condition that some row may meet is written as one condition, or not at all. -/
theorem renderCondition_of_not_never {qualifier : Option Str} {c : EnforcedCondition}
    (hc : isNever c = false) :
    (renderCondition qualifier c).toList = (writtenConditions qualifier c).map condText := by
  rw [renderCondition_eq]
  cases c with
  | cmp column op value => simp [writtenConditions, joined, join]
  | inSet column negated values =>
    cases values with
    | nil =>
      cases negated
      · cases hc
      · rfl
    | cons v vs => simp [writtenConditions, joined, join]

theorem filterMap_renderCondition {qualifier : Option Str} {conds : GrantClause}
    (hconds : conds.any isNever = false) :
    conds.filterMap (renderCondition qualifier) =
      (conds.flatMap (writtenConditions qualifier)).map condText := by
  induction conds with
  | nil => rfl
  | cons c conds ih =>
    rw [any_cons, Bool.or_eq_false_iff] at hconds
    rw [filterMap_cons, flatMap_cons, map_append, ← ih hconds.2,
      ← renderCondition_of_not_never hconds.1]
    cases renderCondition qualifier c <;> rfl

theorem renderBranches_eq (qualifier : Option Str) (clauses : List GrantClause) :
    renderBranches qualifier clauses =
      (branchConditions qualifier clauses).map (Option.map (List.map condText)) := by
  induction clauses with
  | nil => rfl
  | cons clause rest ih =>
    rw [renderBranches, branchConditions]
    by_cases hnever : clause.any isNever = true
    · rw [if_pos hnever, if_pos hnever, ih]
    rw [if_neg hnever, if_neg hnever, filterMap_renderCondition (by simpa using hnever)]
    rcases clause.flatMap (writtenConditions qualifier) with _ | ⟨c, _ | ⟨d, cs⟩⟩
    · rfl
    · simp only [ih]
      cases branchConditions qualifier rest with
      | error e => rfl
      | ok branches => cases branches <;> rfl
    · rfl

theorem contradiction_eq (column : Str) :
    contradiction column = (GrantFilter.all (contradictory column)).text := by
  simp [contradiction, contradictory, GrantFilter.text, GrantFilter.chunks, joinChunks, condChunks,
    Condition.single, chunkText, blankChunks, str]

theorem renderEnforcedOrClauses_eq (clauses : List GrantClause) (qualifier : Option Str) :
    renderEnforcedOrClauses clauses qualifier =
      (orFilter clauses qualifier).map GrantFilter.text := by
  rw [renderEnforcedOrClauses, orFilter]
  cases collapseSameColumnOrClauses clauses with
  | some cond =>
    simp only [renderEnforcedClause_eq, flatMap_cons, flatMap_nil, append_nil]
    rfl
  | none =>
    simp only [renderBranches_eq]
    cases branchConditions qualifier clauses with
    | error e => rfl
    | ok branches =>
      rcases branches with _ | _ | ⟨c, cs⟩
      · rfl
      · cases clauses.flatten with
        | nil => rfl
        | cons first rest => simp [bind, Except.bind, Except.map, contradiction_eq]
      · have hjoin := join_condText (str "OR") (c :: cs)
        simp only [bind, Except.bind, Except.map, Option.map_some, map_cons,
          Except.ok.injEq, GrantFilter.text]
        exact hjoin

/-- **The text of a grant is the text of its filter.** -/
theorem renderEnforcedClauses_eq (clauses : List GrantClause) (qualifier : Option Str) :
    renderEnforcedClauses clauses qualifier =
      (grantFilter clauses qualifier).map GrantFilter.text := by
  rcases clauses with _ | ⟨clause, _ | ⟨second, rest⟩⟩
  · exact renderEnforcedOrClauses_eq [] qualifier
  · rw [renderEnforcedClauses, renderEnforcedClause_eq]; rfl
  · exact renderEnforcedOrClauses_eq (clause :: second :: rest) qualifier

/-! ### Read back -/

/-- The tokens of a filter. -/
def GrantFilter.tokens (f : GrantFilter) : List Str := f.chunks.map Prod.snd

variable {f : GrantFilter}

theorem GrantFilter.grantChunk (hf : ∀ c ∈ f.conditions, Renderable c) :
    ∀ chunk ∈ f.chunks, GrantChunk chunk := by
  cases f with
  | all cs | any cs => exact grantChunk_joinChunks (grantChunk_fixed (by simp)) cs hf

/-- The chunks of a filter over renderable conditions lex to its tokens. -/
theorem GrantFilter.lexesTo_chunks (hf : ∀ c ∈ f.conditions, Renderable c) :
    ∀ chunk ∈ f.chunks, LexesTo chunk.1 chunk.2 :=
  fun chunk hmem => (GrantFilter.grantChunk hf chunk hmem).lexesTo

/-- **The tokens of a filter are read back as the filter**, unless a value list looks like a
subquery, which the parser refuses. -/
theorem GrantFilter.parse_tokens (hne : f.conditions ≠ []) (hf : ∀ c ∈ f.conditions, Renderable c) :
    parseWhereConditions f.tokens =
      if f.conditions.any startsSelect then .error subqueryError else .ok f.clauses := by
  cases f with
  | all cs => exact parseWhereConditions_and cs hf
  | any cs => exact parseWhereConditions_or cs hne hf

/-- A filter begins with a column name. -/
theorem GrantFilter.tokens_eq_cons (hne : f.conditions ≠ []) :
    ∃ c ∈ f.conditions, ∃ rest, f.tokens = c.field :: rest := by
  cases f with
  | all cs | any cs => exact joinTokens_eq_cons _ hne

end Lux
