import Lux.RowStatements
import Lux.WholeFloats

/-!
# The two comparisons of a grant

A condition of a grant is decided twice. The check of an insert or an update compares the submitted
text with the grant's (`grants::cmp`): as floats if both read as such, else as texts. The filter
compares what the column gives back for the submitted text, in the type of the column.

`Alike` says for which column types, operators and texts the two give the same answer
(`holds_eq_accepts`): integers below `2 ^ 53`; floats no closer than `f64::EPSILON` unless they are
equal, for `=` and `!=`; Booleans in one spelling, for `=` and `!=`; texts that the column keeps as
they are, if not both are numerals or the order of the numerals is that of the texts.
-/

namespace Lux

open StdText WholeFloats

/-! ### Integers read as floats -/

/-- A text with a value is made of digits. -/
theorem isDigit_of_digits? {s : Str} {n : Nat} (h : digits? s = some n) :
    ∀ c ∈ s, c.isDigit = true := by
  have hnone : ∀ s : Str, s.foldl (fun acc c => acc.bind fun n => (digit? c).map (10 * n + ·))
      none = none := by
    intro s
    induction s with
    | nil => rfl
    | cons c s ih => exact ih
  have hfold : ∀ (s : Str) (acc n : Nat), s.foldl
      (fun acc c => acc.bind fun n => (digit? c).map (10 * n + ·)) (some acc) = some n →
      ∀ c ∈ s, c.isDigit = true := by
    intro s
    induction s with
    | nil => intro acc n _ c hc; cases hc
    | cons d s ih =>
      intro acc n h
      rw [List.foldl_cons] at h
      cases hd : digit? d with
      | none => rw [hd] at h; exact absurd ((hnone s).symm.trans h) nofun
      | some k =>
        rw [hd] at h
        have hdigit : d.isDigit = true := by
          rw [digit?] at hd
          split at hd
          · next hrange =>
              rw [Char.isDigit, Bool.and_eq_true, decide_eq_true_eq, decide_eq_true_eq]
              exact hrange
          · cases hd
        intro c hc
        rcases List.mem_cons.mp hc with rfl | hc
        · exact hdigit
        · exact ih _ n h c hc
  exact hfold s 0 n h

/-- Digits are no word. -/
theorem eqIgnoreAsciiCase_digits {s word : Str} (hs : ∀ c ∈ s, c.isDigit = true) (hne : s ≠ [])
    (hword : (word.map asciiLower).head?.any Char.isDigit = false) :
    eqIgnoreAsciiCase s word = false := by
  obtain ⟨c, rest, rfl⟩ := List.exists_cons_of_ne_nil hne
  have hc := hs c List.mem_cons_self
  have hlower : asciiLower c = c := by
    rw [asciiLower, if_neg]
    rintro ⟨hA, -⟩
    simp only [Char.isDigit, Bool.and_eq_true, decide_eq_true_eq] at hc
    exact absurd (le_trans hA hc.2) (by decide)
  by_contra h
  rw [Bool.not_eq_false, eqIgnoreAsciiCase, beq_iff_eq, List.map_cons, hlower] at h
  rw [← h] at hword
  exact Bool.false_ne_true (hword.symm.trans hc)

/-- **A text that reads as an integer reads as the float of that integer.** -/
theorem parseF64_of_parseI64 {v : Str} {i : Int} (h : parseI64 v = some i) :
    ∃ minus m, i = value minus m ∧ (-(2 ^ 63) ≤ i ∧ i < 2 ^ 63) ∧
      parseF64 v = some (whole minus m) := by
  rw [parseI64] at h
  cases hsigned : signed v with | mk minus body =>
  rw [hsigned] at h
  simp only at h
  split at h
  · cases h
  next hne =>
    cases hdigits : digits? body with
    | none => rw [hdigits] at h; cases h
    | some m =>
      rw [hdigits] at h
      change (if -(2 ^ 63) ≤ value minus m ∧ value minus m < 2 ^ 63 then some (value minus m)
        else none) = some i at h
      split at h
      · next hrange =>
        cases h
        refine ⟨minus, m, rfl, hrange, ?_⟩
        have hall := isDigit_of_digits? hdigits
        have hwhole : body.takeWhile Char.isDigit = body := List.takeWhile_eq_self_iff.mpr hall
        have hrest : body.dropWhile Char.isDigit = [] := List.dropWhile_eq_nil_iff.mpr hall
        have hdecimal : decimal? body = some (m, 0) := by
          simp [decimal?, hwhole, hrest, hne, hdigits, exponent?]
        have hinf : eqIgnoreAsciiCase body (str "inf") = false :=
          eqIgnoreAsciiCase_digits hall hne (by decide)
        have hinfinity : eqIgnoreAsciiCase body (str "infinity") = false :=
          eqIgnoreAsciiCase_digits hall hne (by decide)
        have hnan : eqIgnoreAsciiCase body (str "nan") = false :=
          eqIgnoreAsciiCase_digits hall hne (by decide)
        simp only [parseF64, parseFloat, hsigned, hinf, hinfinity, hnan, hdecimal, Bool.or_self,
          Bool.false_eq_true, if_false, Option.map_some]
        rfl
      · cases h

/-! ### Which texts are compared alike -/

/-- A text that reads as an integer a double holds exactly. -/
def SmallInt (s : Str) : Prop := ∃ i, parseI64 s = some i ∧ i.natAbs < 2 ^ 53

/-- Two floats that are equal or at least `f64::EPSILON` apart. -/
def Separated (a b : F64) : Prop :=
  nearlyEqual a b = a.beq b ∧ epsilon.le (a.sub b).abs = !a.beq b

/-- Two texts that, if both are numerals, are ordered as the numbers. -/
def NumeralsAlike (op : GrantOp) (v w : Str) : Prop :=
  ∀ a b, parseF64 v = some a → parseF64 w = some b →
    floatOpHolds op.cmpOp a b = opHolds op.cmpOp (compareStr v w)

/-- Two Booleans in one spelling. -/
def SameSpelling (v w : Str) : Prop :=
  (v ∈ [str "true", str "false"] ∧ w ∈ [str "true", str "false"]) ∨
    (v ∈ [str "1", str "0"] ∧ w ∈ [str "1", str "0"])

/-- A comparison of the submitted text `v`, for which the column gives back `u`, with the grant's
text `w`, that the check and the filter decide alike. -/
def ComparesAlike (ft : FieldType) (op : GrantOp) (v u w : Str) : Prop :=
  match ft with
  | .int | .timestamp | .ref _ => SmallInt v ∧ SmallInt w
  | .float => parseF64 u = parseF64 v ∧ ∃ a b, parseF64 v = some a ∧ parseF64 w = some b ∧
      (op = .eq ∨ op = .ne → Separated a b)
  | .bool => (op = .eq ∨ op = .ne) ∧ SameSpelling v w
  | .str | .uuid | .vector _ | .json | .array => u = v ∧ NumeralsAlike op v w

/-- A member of a grant's set that the check, which compares texts, and the filter find alike. -/
def FoundAlike (ft : FieldType) (v u w : Str) : Prop :=
  match ft with
  | .int | .timestamp | .ref _ => showInt (intOf v) = v ∧ showInt (intOf w) = w
  | .float => parseF64 u = parseF64 v ∧ nearlyEqual (floatOf v) (floatOf w) = (v == w)
  | .bool => SameSpelling v w
  | .str | .uuid | .vector _ | .json | .array => u = v

/-- A condition that the check and the filter decide alike on a submitted text `v`, for which a
column of the type gives back `u`. -/
def EnforcedCondition.AlikeIn (ft : FieldType) (v u : Str) : EnforcedCondition → Prop
  | .cmp _ op w => ComparesAlike ft op v u w
  | .inSet _ _ values => ∀ w ∈ values, FoundAlike ft v u w

/-- What a column gives back for a submitted text, and in which type it is compared: the stored
form, and the text itself for the implicit key. -/
inductive GivesBack (eng : Engine) (s : Schema) (name v : Str) : FieldType → Str → Prop
  | column {f : FieldDef} {ft : FieldType} {u : Str} : s.find name = some f → f.fieldType = ft →
      storedText eng.ext eng.now ft v = .ok u → GivesBack eng s name v ft u
  | implicitKey : s.find name = none → name = str "id" → s.implicitPk = true →
      GivesBack eng s name v .int v

/-- A condition that the check and the filter decide alike on a submitted text. -/
def EnforcedCondition.Alike (eng : Engine) (s : Schema) (v : Str) (c : EnforcedCondition) : Prop :=
  ∃ ft u, GivesBack eng s c.column v ft u ∧ c.AlikeIn ft v u

/-! ### Integer columns -/

theorem intOf_showInt {v : Str} {i : Int} (h : parseI64 v = some i) : intOf (showInt i) = i := by
  obtain ⟨-, -, -, ⟨hmin, hmax⟩, -⟩ := parseF64_of_parseI64 h
  rw [intOf, parseI64_showInt hmin hmax]
  rfl

/-- A text that is the numeral of what it reads as does read as an integer. -/
theorem parseI64_of_showInt {v : Str} (h : showInt (intOf v) = v) :
    parseI64 v = some (intOf v) := by
  cases hv : parseI64 v with
  | some i => rw [intOf, hv]; rfl
  | none =>
    have hzero : v = str "0" := by
      rw [← h, intOf, hv]
      rfl
    rw [hzero] at hv
    exact absurd hv (by decide)

/-- The comparisons of two floats, by their order. -/
theorem floatOpHolds_eq_opHolds {op : GrantOp} {a b : F64} {o : Ordering}
    (h : a.unpack.compare b.unpack = some o) (h' : b.unpack.compare a.unpack = some o.swap) :
    floatOpHolds op.cmpOp a b = opHolds op.cmpOp o := by
  cases op <;> cases o <;>
    simp [floatOpHolds, opHolds, GrantOp.cmpOp, Float.Model.beq, Float.Model.lt, Float.Model.le,
      Float.Model.UnpackedFloat.beq, Float.Model.UnpackedFloat.lt, Float.Model.UnpackedFloat.le,
      h, h']

/-- Small integers are compared alike. -/
theorem grantCmp_smallInt {v w : Str} (op : GrantOp) (hv : SmallInt v) (hw : SmallInt w) :
    grantCmp v op w = opHolds op.cmpOp (compare (intOf v) (intOf w)) := by
  obtain ⟨i, hi, hismall⟩ := hv
  obtain ⟨j, hj, hjsmall⟩ := hw
  obtain ⟨minus, m, rfl, -, hfv⟩ := parseF64_of_parseI64 hi
  obtain ⟨minus', n, rfl, -, hfw⟩ := parseF64_of_parseI64 hj
  have hm : m < 2 ^ 53 := by
    cases minus <;> simpa [value] using hismall
  have hn : n < 2 ^ 53 := by
    cases minus' <;> simpa [value] using hjsmall
  rw [grantCmp, hfv, hfw]
  simp only [intOf, hi, hj, Option.getD_some]
  apply floatOpHolds_eq_opHolds (compare_whole minus minus' hm hn)
  rw [compare_whole minus' minus hn hm]
  exact congrArg some Std.OrientedCmp.eq_swap

/-- An integer column gives an integer back. -/
theorem intOf_storedText {ext : Externals} {now : Int} {ft : FieldType}
    (hft : ft = .int ∨ ft = .timestamp ∨ ∃ table, ft = .ref table) {v u : Str} {i : Int}
    (hv : parseI64 v = some i) (hu : storedText ext now ft v = .ok u) : intOf u = i := by
  have hcell : ∀ kind, intCell kind v = .ok (.int i) := by
    intro kind
    rw [intCell, hv]
  have hstar : v ≠ str "*" := by
    rintro rfl
    have hnone : parseI64 (str "*") = none := by decide
    exact absurd (hnone.symm.trans hv) nofun
  have hshow : u = showInt i := by
    rcases hft with rfl | rfl | ⟨table, rfl⟩
    · rw [storedText, encodeValue, hcell] at hu
      exact (Except.ok.inj hu).symm
    · rw [storedText, encodeValue, if_neg hstar, hcell] at hu
      exact (Except.ok.inj hu).symm
    · rw [storedText, encodeValue, hcell] at hu
      exact (Except.ok.inj hu).symm
  rw [hshow, intOf_showInt hv]

/-! ### Boolean columns -/

theorem truth_storedText {ext : Externals} {now : Int} {v u : Str}
    (hu : storedText ext now .bool v = .ok u) : truth u = truth v := by
  rw [storedText, encodeValue] at hu
  split at hu
  · next h =>
      cases hu
      rcases h with rfl | rfl <;> rfl
  · split at hu
    · next h =>
        cases hu
        rcases h with rfl | rfl <;> rfl
    · cases hu

/-- Booleans in one spelling are compared alike. -/
theorem grantCmp_sameSpelling {v w : Str} (h : SameSpelling v w) :
    grantCmp v .eq w = (truth v == truth w) ∧ grantCmp v .ne w = (truth v != truth w) ∧
      (v == w) = (truth v == truth w) := by
  simp only [SameSpelling, List.mem_cons, List.not_mem_nil, or_false] at h
  rcases h with ⟨rfl | rfl, rfl | rfl⟩ | ⟨rfl | rfl, rfl | rfl⟩ <;> decide

/-! ### The answers agree -/

variable {eng : Engine} {s : Schema} {name v u w : Str} {ft : FieldType}

namespace GivesBack

/-- An integer is given back as an integer. -/
theorem intOf_eq (h : GivesBack eng s name v ft u)
    (hft : ft = .int ∨ ft = .timestamp ∨ ∃ table, ft = .ref table) {i : Int}
    (hv : parseI64 v = some i) : intOf u = intOf v := by
  have hi : intOf v = i := by rw [intOf, hv]; rfl
  cases h with
  | column hfind htype hstored => rw [hi, intOf_storedText hft hv hstored]
  | implicitKey => rfl

/-- A Boolean is given back as one. -/
theorem truth_eq (h : GivesBack eng s name v .bool u) : truth u = truth v := by
  cases h with
  | column hfind htype hstored => exact truth_storedText hstored

end GivesBack

/-- The texts of a set that a text column keeps, and numerals compared as texts. -/
theorem grantCmp_numeralsAlike {op : GrantOp} (h : NumeralsAlike op v w) :
    grantCmp v op w = opHolds op.cmpOp (compareStr v w) := by
  rw [grantCmp]
  cases hv : parseF64 v with
  | none => rfl
  | some a =>
    cases hw : parseF64 w with
    | none => rfl
    | some b => exact h a b hv hw

/-- **A comparison decided alike.** -/
theorem compareTyped_eq_grantCmp {op : GrantOp} (h : GivesBack eng s name v ft u)
    (halike : ComparesAlike ft op v u w) :
    compareTyped eng.ext ft u op.cmpOp w = grantCmp v op w := by
  have hint : (ft = .int ∨ ft = .timestamp ∨ ∃ table, ft = .ref table) → SmallInt v ∧ SmallInt w →
      opHolds op.cmpOp (compare (intOf u) (intOf w)) = grantCmp v op w := by
    rintro hft ⟨⟨i, hv, hsmall⟩, hw⟩
    rw [h.intOf_eq hft hv, grantCmp_smallInt op ⟨i, hv, hsmall⟩ hw]
  have htext : u = v ∧ NumeralsAlike op v w →
      opHolds op.cmpOp (compareStr u w) = grantCmp v op w := by
    rintro ⟨rfl, hnumerals⟩
    exact (grantCmp_numeralsAlike hnumerals).symm
  cases ft with
  | int => exact hint (.inl rfl) halike
  | timestamp => exact hint (.inr (.inl rfl)) halike
  | ref table => exact hint (.inr (.inr ⟨table, rfl⟩)) halike
  | str | uuid | vector _ | json | array =>
    rw [← htext halike]
    cases op <;> rfl
  | bool =>
    obtain ⟨hop, hspelling⟩ := halike
    obtain ⟨heq, hne, -⟩ := grantCmp_sameSpelling hspelling
    rcases hop with rfl | rfl
    · rw [heq, ← h.truth_eq]; rfl
    · rw [hne, ← h.truth_eq]; rfl
  | float =>
    obtain ⟨hread, a, b, hv, hw, hapart⟩ := halike
    have hlhs : floatOf u = a := by rw [floatOf, hread, hv]; rfl
    have hrhs : floatOf w = b := by rw [floatOf, hw]; rfl
    rw [grantCmp, hv, hw]
    cases op with
    | eq =>
      simp only [compareTyped, GrantOp.cmpOp, floatOpHolds, hlhs, hrhs]
      exact (hapart (.inl rfl)).1
    | ne =>
      simp only [compareTyped, GrantOp.cmpOp, floatOpHolds, hlhs, hrhs]
      exact (hapart (.inr rfl)).2
    | gt | lt | ge | le =>
      simp only [compareTyped, GrantOp.cmpOp, floatOpHolds, hlhs, hrhs]

/-- **A member found alike.** -/
theorem elemEq_eq_beq (h : GivesBack eng s name v ft u) (halike : FoundAlike ft v u w) :
    elemEq ft u w = (w == v) := by
  have hint : (ft = .int ∨ ft = .timestamp ∨ ∃ table, ft = .ref table) →
      showInt (intOf v) = v ∧ showInt (intOf w) = w → (intOf u == intOf w) = (w == v) := by
    rintro hft ⟨hv, hw⟩
    rw [h.intOf_eq hft (parseI64_of_showInt hv), Bool.eq_iff_iff, beq_iff_eq, beq_iff_eq]
    constructor
    · intro heq
      rw [← hw, ← heq, hv]
    · rintro rfl
      rfl
  cases ft with
  | int => exact hint (.inl rfl) halike
  | timestamp => exact hint (.inr (.inl rfl)) halike
  | ref table => exact hint (.inr (.inr ⟨table, rfl⟩)) halike
  | str | uuid | vector _ | json | array =>
    obtain rfl : u = v := halike
    exact Bool.beq_comm
  | bool =>
    obtain ⟨-, -, hsame⟩ := grantCmp_sameSpelling halike
    rw [Bool.beq_comm, hsame, ← h.truth_eq]; rfl
  | float =>
    obtain ⟨hread, hnear⟩ := halike
    have hlhs : floatOf u = floatOf v := by rw [floatOf, hread]; rfl
    rw [elemEq, hlhs, hnear]
    exact Bool.beq_comm

/-- The name of a column that gives something back has no dot, and its conditions are decided by the
value in its type. -/
theorem GivesBack.rowMatchesCondition_eq (h : GivesBack eng s name v ft u) {row : Row}
    (hrow : row.get name = some u) {c : Condition} (hc : c.field = name) :
    s.knows name = true ∧
      rowMatchesCondition eng.ext s row c = matchesCondition eng.ext ft (some u) c := by
  subst hc
  have hplain : '.' ∉ c.field → (splitOnce '.' c.field).filter (fun p => s.isJson p.1) = none ∧
      bareCol c.field = c.field := by
    intro hdot
    have hdrop : c.field.dropWhile (· != '.') = [] := by
      rw [List.dropWhile_eq_nil_iff]
      intro d hd
      simpa using fun heq : d = '.' => hdot (heq ▸ hd)
    exact ⟨by rw [splitOnce, hdrop]; rfl, afterLast_eq_self hdot⟩
  cases h with
  | column hfind htype hstored =>
    obtain ⟨hpath, hbare⟩ := hplain (Schema.find_no_dot hfind)
    refine ⟨by simp [Schema.knows, hfind], ?_⟩
    rw [rowMatchesCondition, hpath, hbare]
    simp only [hfind, htype, hrow]
  | implicitKey hfind hname hpk =>
    obtain ⟨hpath, hbare⟩ := hplain (by rw [hname]; decide)
    refine ⟨by simp [Schema.knows, hname, hpk], ?_⟩
    rw [rowMatchesCondition, hpath, hbare]
    simp only [hfind, hrow]
    rw [if_pos ⟨hname, hpk⟩]

/-- **The check and the filter agree** on a condition decided alike, once the row has what the
column gives back for the submitted text. -/
theorem EnforcedCondition.holds_eq_accepts {c : EnforcedCondition}
    (h : GivesBack eng s c.column v ft u) (halike : c.AlikeIn ft v u) {row : Row}
    (hrow : row.get c.column = some u) : c.holds eng.ext s row = c.accepts v := by
  cases c with
  | cmp column op w =>
    obtain ⟨hknows, hmatches⟩ := h.rowMatchesCondition_eq hrow
      (c := (EnforcedCondition.cmp column op w).condition none) rfl
    simp only [holds, accepts, hmatches]
    rw [show s.knows (EnforcedCondition.cmp column op w).column = true from hknows, Bool.true_and,
      ← compareTyped_eq_grantCmp h halike]
    cases op <;> rfl
  | inSet column negated values =>
    cases values with
    | nil => cases negated <;> rfl
    | cons x xs =>
      obtain ⟨hknows, hmatches⟩ := h.rowMatchesCondition_eq hrow
        (c := (EnforcedCondition.inSet column negated (x :: xs)).condition none) rfl
      have hfound : (x :: xs).any (elemEq ft u) = (x :: xs).any (· == v) := by
        rw [Bool.eq_iff_iff, List.any_eq_true, List.any_eq_true]
        refine exists_congr fun y => and_congr_right fun hy => ?_
        rw [elemEq_eq_beq h (halike y hy)]
      simp only [holds, accepts, hmatches]
      rw [show s.knows (EnforcedCondition.inSet column negated (x :: xs)).column = true from hknows,
        Bool.true_and, Lux.inSet, ← hfound]
      cases negated with
      | false => exact (Bool.bne_false _).symm
      | true => exact (Bool.bne_true _).symm

end Lux
