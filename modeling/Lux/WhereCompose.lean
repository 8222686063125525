import Lux.KeyedList
import Lux.WhereText

/-!
# Filter text put together from pieces

A statement's filter is the caller's text with the text of a grant behind it, so what the whole
means depends on what the tokenizer and the parser carry over from the first piece to the second.
Two things are shown here.

*Tokens.*  A text that is scanned to its end outside of quotes leaves nothing behind
(`scanWhere_append_blank`): chunks that follow it at blanks each give their token
(`tokenizeWhere_append_chunks`). Words, operators and quoted values are such chunks.

*Conditions.*  Behind tokens that do not end in an open value list, a continuation `AND col ...`
is either rejected or read as conditions of its own (`parseWhereConditions_append`).
-/

namespace Lux

open StdText TokenStream List Scan

/-! ### Tokens across a blank -/

/-- The loop takes one round after the other. -/
theorem scanWhere_cons (s : Scan) (c : Char) (rest : Str) :
    scanWhere s (c :: rest) = (do
      let (s', took) ← scanStep s c rest.head?
      scanWhere s' (if took then rest.tail else rest)) := by
  rw [scanWhere.eq_def]
  cases hstep : scanStep s c rest.head? with
  | error e => simp [hstep, bind, Except.bind]
  | ok r =>
    obtain ⟨s', took⟩ := r
    cases took <;> cases rest <;> simp_all [bind, Except.bind]

variable {c : Char} {rest : List Str} {s : Scan}

/-- A round that did not need to look at a further character gives the same before a blank. -/
theorem scanStep_space {r : Scan × Bool} (h : scanStep s c none = .ok r) :
    r.2 = false ∧ scanStep s c (some ' ') = .ok r := by
  simp only [scanStep] at h ⊢
  repeat' split at h
  all_goals cases h <;> simp_all

theorem scanStep_blank (s : Scan) (next : Option Char) (hq : s.inQuote = false) :
    scanStep s ' ' next = .ok (s.flush, false) := by
  simp [scanStep, hq, show isWhitespace ' ' = true by decide]

theorem scanWhere_blank (s : Scan) (v : Str) (hq : s.inQuote = false) :
    scanWhere s (' ' :: v) = scanWhere s.flush v := by
  rw [scanWhere_cons, scanStep_blank s _ hq]
  rfl

/-- **A text that is scanned to its end outside of quotes does not affect what follows a blank.** -/
theorem scanWhere_append_blank (u v : Str) : ∀ s s', scanWhere s u = .ok s' →
    s'.inQuote = false → scanWhere s (u ++ ' ' :: v) = scanWhere s'.flush v := by
  induction hlen : u.length using Nat.strongRecOn generalizing u with
  | _ n ih =>
    intro s s' h hq
    cases u with
    | nil =>
      cases h
      exact scanWhere_blank s v hq
    | cons c rest =>
      rw [scanWhere_cons] at h
      obtain ⟨r, hstep, h⟩ := KeyedList.bind_eq_ok.mp h
      have hstep' : scanStep s c (rest ++ ' ' :: v).head? = .ok r := by
        cases rest with
        | nil => exact (scanStep_space hstep).2
        | cons d more => exact hstep
      have hrest : (if r.2 then (rest ++ ' ' :: v).tail else rest ++ ' ' :: v) =
          (if r.2 then rest.tail else rest) ++ ' ' :: v := by
        cases rest with
        | nil => simp [(scanStep_space hstep).1]
        | cons d more => cases r.2 <;> rfl
      rw [cons_append, scanWhere_cons, hstep']
      show scanWhere r.1 (if r.2 then (rest ++ ' ' :: v).tail else rest ++ ' ' :: v) = _
      rw [hrest]
      refine ih _ ?_ _ rfl r.1 s' h hq
      have htail : (if r.2 then rest.tail else rest).length ≤ rest.length := by
        cases r.2 <;> simp
      simp only [length_cons] at hlen
      omega

variable {ts : List Str}

theorem tokenizeWhere_eq_ok {text : Str} : tokenizeWhere text = .ok ts ↔
    ∃ s, scanWhere (ready []) text = .ok s ∧ s.inQuote = false ∧ s.flush.tokens = ts := by
  rw [tokenizeWhere]
  cases scanWhere (ready []) text with
  | error e => exact ⟨fun h => (by cases h), fun ⟨_, h, _⟩ => (by cases h)⟩
  | ok s =>
    cases hq : s.inQuote with
    | true => simp [bind, Except.bind, hq]
    | false => simp [bind, Except.bind, hq]

/-! ### Chunks -/

/-- The text lexes to the one token, from between two tokens up to a blank or the end. -/
def LexesTo (text token : Str) : Prop :=
  ∀ toks rest, (rest = [] ∨ rest.head? = some ' ') →
    ∃ s, s.inQuote = false ∧ s.flush = Scan.ready (toks ++ [token]) ∧
      scanWhere (Scan.ready toks) (text ++ rest) = scanWhere s rest

/-- A character that is part of a word wherever it stands behind the first place. -/
def wordChar (c : Char) : Bool := !isWhitespace c && c != '=' && c != '<' && c != '>'

/-- A text that is one token as it stands. -/
def PlainWord (w : Str) : Prop :=
  w ≠ [] ∧ w.head? ≠ some '\'' ∧ ∀ c ∈ w, wordChar c = true

/-- A plain word from checks that run over its own characters only. -/
theorem plainWord_of_all {w : Str} (hne : w ≠ []) (hquote : w.head? ≠ some '\'')
    (hall : w.all wordChar = true) : PlainWord w :=
  ⟨hne, hquote, all_eq_true.mp hall⟩

theorem scanStep_word {next : Option Char} (hq : s.inQuote = false)
    (hstart : s.current = none → c ≠ '\'') (hc : wordChar c = true) (hnext : next ≠ some '=') :
    scanStep s c next = .ok (s.push [c], false) := by
  simp only [wordChar, Bool.and_eq_true, Bool.not_eq_true', bne_iff_ne] at hc
  obtain ⟨⟨⟨hws, heq⟩, hlt⟩, hgt⟩ := hc
  have hquote : ¬ (c = '\'' ∧ s.current = none) := fun h => hstart h.2 h.1
  simp [scanStep, hq, hquote, heq, hlt, hgt, hnext, hws]

theorem head?_append_ne_eq {w rest : Str} (hw : ∀ c ∈ w, wordChar c = true)
    (hrest : rest.head? ≠ some '=') : (w ++ rest).head? ≠ some '=' := by
  cases w with
  | nil => exact hrest
  | cons d w =>
    have hd := hw d mem_cons_self
    intro h
    cases h
    simp [wordChar] at hd

/-- Word characters are collected in the token being built. -/
theorem scanWhere_word (w rest : Str) (hrest : rest.head? ≠ some '=') : ∀ (toks : List Str)
    (cur : Str), (∀ c ∈ w, wordChar c = true) →
    scanWhere ⟨toks, some cur, false⟩ (w ++ rest) =
      scanWhere ⟨toks, some (cur ++ w), false⟩ rest := by
  induction w with
  | nil => intro toks cur _; simp
  | cons c w ih =>
    intro toks cur hw
    have hword : ∀ d ∈ w, wordChar d = true := fun d hd => hw d (by simp [hd])
    have hstep := scanStep_word (s := ⟨toks, some cur, false⟩) rfl (fun h => by cases h)
      (hw c (by simp)) (head?_append_ne_eq hword hrest)
    rw [cons_append, scanWhere_cons, hstep]
    show scanWhere (push _ [c]) (w ++ rest) = _
    rw [push, Option.getD_some, ih toks (cur ++ [c]) hword]
    simp

theorem lexesTo_word {w : Str} (hw : PlainWord w) : LexesTo w w := by
  intro toks rest hrest
  obtain ⟨hne, hquote, hchars⟩ := hw
  have hrest' : rest.head? ≠ some '=' := by
    rcases hrest with rfl | h
    · simp
    · rw [h]; decide
  obtain ⟨c, w, rfl⟩ := exists_cons_of_ne_nil hne
  refine ⟨⟨toks, some (c :: w), false⟩, rfl, rfl, ?_⟩
  have hword : ∀ d ∈ w, wordChar d = true := fun d hd => hchars d (by simp [hd])
  have hstep := scanStep_word (s := ready toks) rfl (fun _ h => hquote (by simp [h]))
    (hchars c (by simp)) (head?_append_ne_eq hword hrest')
  rw [cons_append, scanWhere_cons, hstep]
  exact scanWhere_word w rest hrest' toks [c] hword

/-- Both replacements in one pass. -/
theorem quoteWhereValue_eq (value : Str) : quoteWhereValue value =
    '\'' :: value.flatMap (fun c => if c = '\'' ∨ c = '\\' then ['\\', c] else [c]) ++ ['\''] := by
  have h : replaceChar '\'' ['\\', '\''] (replaceChar '\\' ['\\', '\\'] value) =
      value.flatMap (fun c => if c = '\'' ∨ c = '\\' then ['\\', c] else [c]) := by
    induction value with
    | nil => rfl
    | cons c cs ih =>
      simp only [replaceChar, flatMap_cons, flatMap_append] at ih ⊢
      congr 1
      by_cases h1 : c = '\\'
      · subst h1; decide
      · by_cases h2 : c = '\'' <;> simp [h1, h2]
  rw [quoteWhereValue, h]

/-- An escaped value inside an open quote is collected as it was, and the quote closes behind it. -/
theorem scanWhere_escaped (value rest : Str) : ∀ (toks : List Str) (cur : Str),
    scanWhere ⟨toks, some cur, true⟩
        (value.flatMap (fun c => if c = '\'' ∨ c = '\\' then ['\\', c] else [c]) ++ '\'' :: rest) =
      scanWhere ⟨toks, some (cur ++ value), false⟩ rest := by
  induction value with
  | nil =>
    intro toks cur
    rw [flatMap_nil, nil_append, scanWhere_cons]
    simp [scanStep, bind, Except.bind]
  | cons c value ih =>
    intro toks cur
    have hcollect : ∀ more, scanWhere ⟨toks, some cur, true⟩
        ((if c = '\'' ∨ c = '\\' then ['\\', c] else [c]) ++ more) =
        scanWhere ⟨toks, some (cur ++ [c]), true⟩ more := by
      intro more
      by_cases hc : c = '\'' ∨ c = '\\'
      · rw [if_pos hc, cons_append, scanWhere_cons]
        simp [scanStep, hc, bind, Except.bind, push]
      · rw [if_neg hc, cons_append, scanWhere_cons]
        simp only [not_or] at hc
        simp [scanStep, hc.1, hc.2, bind, Except.bind, push]
    rw [flatMap_cons, append_assoc, hcollect, ih]
    simp

theorem lexesTo_quoted (value : Str) : LexesTo (quoteWhereValue value) value := by
  intro toks rest _
  refine ⟨⟨toks, some value, false⟩, rfl, rfl, ?_⟩
  rw [quoteWhereValue_eq, cons_append, cons_append, append_assoc]
  exact scanWhere_escaped value rest toks []

/-- A comparison operator of one character is a token in front of a blank. -/
theorem lexesTo_operator (hc : c = '=' ∨ c = '<' ∨ c = '>') : LexesTo [c] [c] := by
  intro toks rest hrest
  refine ⟨ready (toks ++ [[c]]), rfl, rfl, ?_⟩
  have hnext : rest.head? ≠ some '=' := by
    rcases hrest with rfl | h
    · simp
    · rw [h]; decide
  rw [singleton_append, scanWhere_cons]
  rcases hc with rfl | rfl | rfl <;>
    simp [scanStep, ready, emit, flush, bind, Except.bind, hnext]

/-- So is one of two characters. -/
theorem lexesTo_operatorEq (hc : c = '!' ∨ c = '<' ∨ c = '>') : LexesTo [c, '='] [c, '='] := by
  intro toks rest _
  refine ⟨ready (toks ++ [[c, '=']]), rfl, rfl, ?_⟩
  rw [cons_append, scanWhere_cons]
  rcases hc with rfl | rfl | rfl <;>
    simp [scanStep, ready, emit, flush, bind, Except.bind]

/-- A text that is a sequence of chunks, each behind a blank. -/
def blankChunks (chunks : List (Str × Str)) : Str := chunks.flatMap fun c => ' ' :: c.1

theorem Scan.flush_eq_ready (hq : s.inQuote = false) : s.flush = ready s.flush.tokens := by
  obtain ⟨tokens, current, inQuote⟩ := s
  cases current <;> simp_all [flush, ready]

variable (chunks : List (Str × Str))

theorem blankChunks_head : blankChunks chunks = [] ∨ (blankChunks chunks).head? = some ' ' := by
  cases chunks with
  | nil => exact .inl rfl
  | cons c cs => exact .inr rfl

theorem scanWhere_blankChunks
    (hlex : ∀ c ∈ chunks, LexesTo c.1 c.2) : ∀ s : Scan, s.inQuote = false →
    ∃ s', s'.inQuote = false ∧ s'.flush.tokens = s.flush.tokens ++ chunks.map Prod.snd ∧
      scanWhere s (blankChunks chunks) = .ok s' := by
  induction chunks with
  | nil => intro s hq; exact ⟨s, hq, by simp, rfl⟩
  | cons c cs ih =>
    intro s hq
    obtain ⟨s₁, hq₁, hflush, hscan⟩ :=
      hlex c (by simp) s.flush.tokens (blankChunks cs) (blankChunks_head cs)
    obtain ⟨s', hq', htokens, hrest⟩ := ih (fun d hd => hlex d (by simp [hd])) s₁ hq₁
    refine ⟨s', hq', ?_, ?_⟩
    · rw [htokens, hflush]; simp [ready]
    · calc scanWhere s (blankChunks (c :: cs))
          = scanWhere s (' ' :: (c.1 ++ blankChunks cs)) := by simp [blankChunks]
        _ = scanWhere s.flush (c.1 ++ blankChunks cs) := scanWhere_blank s _ hq
        _ = scanWhere (ready s.flush.tokens) (c.1 ++ blankChunks cs) := by
            rw [← flush_eq_ready hq]
        _ = scanWhere s₁ (blankChunks cs) := hscan
        _ = .ok s' := hrest

/-- **Chunks behind a text that is tokenized on its own.**  The tokens of the text stay what they
are, and one token follows for each chunk. -/
theorem tokenizeWhere_append_chunks {u : Str} (hu : tokenizeWhere u = .ok ts)
    (chunks : List (Str × Str)) (hlex : ∀ c ∈ chunks, LexesTo c.1 c.2) :
    tokenizeWhere (u ++ blankChunks chunks) = .ok (ts ++ chunks.map Prod.snd) := by
  obtain ⟨s, hscan, hq, rfl⟩ := tokenizeWhere_eq_ok.mp hu
  obtain ⟨s', hq', htokens, hchunks⟩ := scanWhere_blankChunks chunks hlex s hq
  refine tokenizeWhere_eq_ok.mpr ⟨s', ?_, hq', htokens⟩
  cases chunks with
  | nil =>
    cases hchunks
    simpa [blankChunks] using hscan
  | cons c cs =>
    have hblank : blankChunks (c :: cs) = ' ' :: (c.1 ++ blankChunks cs) := by
      simp [blankChunks]
    rw [hblank] at hchunks ⊢
    rw [scanWhere_append_blank u _ _ s hscan hq, ← scanWhere_blank s _ hq, hchunks]

/-- A text made of chunks separated by blanks. -/
def chunkText : List (Str × Str) → Str
  | [] => []
  | c :: cs => c.1 ++ blankChunks cs

theorem tokenizeWhere_chunkText (hlex : ∀ c ∈ chunks, LexesTo c.1 c.2) :
    tokenizeWhere (chunkText chunks) = .ok (chunks.map Prod.snd) := by
  cases chunks with
  | nil => rfl
  | cons c cs =>
    have hfirst : tokenizeWhere c.1 = .ok [c.2] := by
      obtain ⟨s, hq, hflush, hscan⟩ := hlex c (by simp) [] [] (.inl rfl)
      rw [append_nil] at hscan
      exact tokenizeWhere_eq_ok.mpr ⟨s, hscan, hq, by rw [hflush]; rfl⟩
    exact tokenizeWhere_append_chunks hfirst cs (fun d hd => hlex d (by simp [hd]))

/-- A token that the condition parser takes for a connective or an operator. -/
def isKeyword (t : Str) : Bool :=
  isAnd t || isOr t || [str "IN", str "NOT", str "IS", str "CONTAINS"].contains (toUppercase t) ||
    (parseCmpOp t).isOk

/-! ### Conditions and their tokens -/

/-- The values of a list, as `parse_in_list` takes them. -/
structure ListValues (values : List Str) : Prop where
  ne_nil : values ≠ []
  no_paren : str ")" ∉ values
  no_select : values.head?.any (eqIgnoreAsciiCase · (str "SELECT")) = false

/-- The predicates behind `IS`, and their tokens. -/
inductive IsTokens : List Str → CmpOp → Prop
  | valid {t : Str} (h : eqIgnoreAsciiCase t (str "VALID") = true) : IsTokens [t] .isValid
  | null {t : Str} (h : eqIgnoreAsciiCase t (str "NULL") = true) : IsTokens [t] .isNull
  | notValid {t u : Str} (h : eqIgnoreAsciiCase t (str "NOT") = true)
      (hu : eqIgnoreAsciiCase u (str "VALID") = true) : IsTokens [t, u] .isNotValid
  | notNull {t u : Str} (h : eqIgnoreAsciiCase t (str "NOT") = true)
      (hu : eqIgnoreAsciiCase u (str "NULL") = true) : IsTokens [t, u] .isNotNull

/-- The tokens of a condition behind its field. -/
inductive OperatorTokens (field : Str) : List Str → Condition → Prop
  | inList {op : Str} {values : List Str} (hop : toUppercase op = str "IN")
      (h : ListValues values) :
      OperatorTokens field (op :: str "(" :: (values ++ [str ")"])) (.list field .inList values)
  | notIn {op t : Str} {values : List Str} (hop : toUppercase op = str "NOT")
      (ht : eqIgnoreAsciiCase t (str "IN") = true) (h : ListValues values) :
      OperatorTokens field (op :: t :: str "(" :: (values ++ [str ")"])) (.list field .notIn values)
  | is {op : Str} {tokens : List Str} {cmp : CmpOp} (hop : toUppercase op = str "IS")
      (h : IsTokens tokens cmp) : OperatorTokens field (op :: tokens) (.single field cmp [])
  | contains {op value : Str} (hop : toUppercase op = str "CONTAINS") :
      OperatorTokens field [op, value] (.single field .contains value)
  | compare {op value : Str} {cmp : CmpOp} (hop : parseCmpOp op = .ok cmp) :
      OperatorTokens field [op, value] (.single field cmp value)

variable {out values : List Str} {field : Str} {c : Condition}

theorem parseInList_of (h : ListValues values) (out : List Str) :
    parseInList (str "(" :: (values ++ str ")" :: out)) = .ok (values, out) := by
  have hhead : (values ++ str ")" :: out).head? = values.head? := head?_append_of_ne_nil _ h.ne_nil
  have hall : ∀ v ∈ values, (v != str ")") = true := by
    intro v hv
    rw [bne_iff_ne]
    rintro rfl
    exact h.no_paren hv
  rw [parseInList, if_neg (not_not.mpr rfl), hhead, if_neg (by simp [h.no_select]),
    takeWhile_append_of_pos hall, dropWhile_append_of_pos hall]
  simp [h.ne_nil]

theorem parseInList_eq_ok (h : parseInList ts = .ok (values, out)) :
    ListValues values ∧ ts = str "(" :: (values ++ str ")" :: out) := by
  cases ts with
  | nil => cases h
  | cons t r =>
    rw [parseInList] at h
    split at h
    · cases h
    next hparen =>
    split at h
    · cases h
    next hselect =>
    split at h
    · cases h
    next d rest hdrop =>
    split at h
    · cases h
    next hne =>
    cases h
    have hd : d = str ")" := by
      have hnot := head?_dropWhile_not (· != str ")") r
      simpa [hdrop] using hnot
    have hsplit := takeWhile_append_dropWhile (p := (· != str ")")) (l := r)
    rw [hdrop, hd] at hsplit
    refine ⟨⟨hne, fun hmem => ?_, ?_⟩, by rw [not_not.mp hparen, hsplit]⟩
    · simpa using mem_takeWhile_imp hmem
    · rw [← head?_append_of_ne_nil _ hne, hsplit]
      simpa using hselect

theorem parseIs_eq_ok : parseIs field ts = .ok (c, out) ↔
    ∃ tokens cmp, IsTokens tokens cmp ∧ c = .single field cmp [] ∧ ts = tokens ++ out := by
  constructor
  · intro h
    cases ts with
    | nil => cases h
    | cons t r =>
      rw [parseIs] at h
      repeat' split at h
      all_goals cases h
      · next hv => exact ⟨[t], _, .valid hv, rfl, rfl⟩
      · next hn => exact ⟨[t], _, .null hn, rfl, rfl⟩
      all_goals
        next hword =>
        obtain ⟨hnot, hu⟩ := hword
        cases r with
        | nil => cases hu
        | cons u r => first | exact ⟨[t, u], _, .notValid hnot hu, rfl, rfl⟩
                            | exact ⟨[t, u], _, .notNull hnot hu, rfl, rfl⟩
  · rintro ⟨tokens, cmp, h, rfl, rfl⟩
    -- words that agree up to case with different keywords are different
    have hne : ∀ {t v w : Str}, eqIgnoreAsciiCase t v = true → toUppercase v ≠ toUppercase w →
        eqIgnoreAsciiCase t w = false := by
      intro t v w hv hdiff
      by_contra hw
      exact hdiff ((toUppercase_eq_of_eqIgnoreAsciiCase hv).symm.trans
        (toUppercase_eq_of_eqIgnoreAsciiCase (by simpa using hw)))
    cases h with
    | valid h => simp [parseIs, h]
    | null h => simp [parseIs, h, hne h (w := str "VALID") (by decide)]
    | notValid h hu =>
      simp [parseIs, h, hu, hne h (w := str "VALID") (by decide),
        hne h (w := str "NULL") (by decide)]
    | notNull h hu =>
      simp [parseIs, h, hu, hne h (w := str "VALID") (by decide),
        hne h (w := str "NULL") (by decide), hne hu (w := str "VALID") (by decide)]

/-- An operator is none of the words that have a meaning of their own. -/
theorem toUppercase_of_parseCmpOp {op : Str} {cmp : CmpOp} (h : parseCmpOp op = .ok cmp) :
    toUppercase op ∉ [str "IN", str "NOT", str "IS", str "CONTAINS"] := by
  unfold parseCmpOp at h
  repeat' split at h
  all_goals first
    | cases h; done
    | (next heq => rw [heq]; decide)
    | (next heq => rw [toUppercase_eq_of_eqIgnoreAsciiCase heq]; decide)

/-- **What a condition is made of.** -/
theorem parseWhereCondition_eq_ok : parseWhereCondition ts = .ok (c, out) ↔
    ∃ field tokens, OperatorTokens field tokens c ∧ ts = field :: (tokens ++ out) := by
  constructor
  · intro h
    rcases ts with _ | ⟨field, _ | ⟨op, r⟩⟩
    · cases h
    · cases h
    refine ⟨field, ?_⟩
    simp only [parseWhereCondition] at h
    split at h
    · next hop =>
      obtain ⟨⟨values, after⟩, hlist, hc⟩ := KeyedList.bind_eq_ok.mp h
      obtain ⟨hvalues, rfl⟩ := parseInList_eq_ok hlist
      cases hc
      exact ⟨_, .inList hop hvalues, by simp⟩
    split at h
    · next hop =>
      cases r with
      | nil => cases h
      | cons t r =>
        simp only at h
        split at h
        · next ht =>
          obtain ⟨⟨values, after⟩, hlist, hc⟩ := KeyedList.bind_eq_ok.mp h
          obtain ⟨hvalues, rfl⟩ := parseInList_eq_ok hlist
          cases hc
          exact ⟨_, .notIn hop ht hvalues, by simp⟩
        · cases h
    split at h
    · next hop =>
      obtain ⟨tokens, cmp, htokens, rfl, rfl⟩ := parseIs_eq_ok.mp h
      exact ⟨_, .is hop htokens, rfl⟩
    cases r with
    | nil => split at h <;> cases h
    | cons value r =>
      simp only at h
      split at h
      · next hop =>
        cases h
        exact ⟨_, .contains hop, rfl⟩
      · obtain ⟨cmp, hcmp, h⟩ := KeyedList.bind_eq_ok.mp h
        cases h
        exact ⟨_, .compare hcmp, rfl⟩
  · rintro ⟨field, tokens, h, rfl⟩
    cases h with
    | inList hop h =>
      simp [parseWhereCondition, hop, parseInList_of h, bind, Except.bind]
    | notIn hop ht h =>
      have hword : str "NOT" ≠ str "IN" := by decide
      simp [parseWhereCondition, hop, hword, ht, parseInList_of h, bind, Except.bind]
    | is hop h =>
      have hword : str "IS" ≠ str "IN" ∧ str "IS" ≠ str "NOT" := by decide
      simpa [parseWhereCondition, hop, hword] using parseIs_eq_ok.mpr ⟨_, _, h, rfl, rfl⟩
    | contains hop =>
      have hword : str "CONTAINS" ≠ str "IN" ∧ str "CONTAINS" ≠ str "NOT" ∧
        str "CONTAINS" ≠ str "IS" := by decide
      simp [parseWhereCondition, hop, hword]
    | compare hop =>
      have hword := toUppercase_of_parseCmpOp hop
      simp only [mem_cons, not_mem_nil, or_false, not_or] at hword
      simp [parseWhereCondition, hop, hword, bind, Except.bind]

theorem parseWhereCondition_consumes : Consumes parseWhereCondition := by
  intro ts c out h
  obtain ⟨field, tokens, -, rfl⟩ := parseWhereCondition_eq_ok.mp h
  simp only [length_cons, length_append]
  omega

/-! ### Conditions across an `AND` -/

/-- A list that runs into the end of the tokens is not closed. -/
theorem parseInList_open {r more : List Str} (h : ListValues values)
    (heq : r ++ str "AND" :: more = values ++ [str ")"]) :
    parseInList (str "(" :: r) = .error unterminatedInList := by
  have hfront : ∃ x, values = r ++ str "AND" :: x := by
    rcases append_eq_append_iff.mp heq with ⟨x, hx, hx'⟩ | ⟨x, hx, hx'⟩
    · cases x with
      | nil => exact absurd hx' (by simp [str])
      | cons t x => exact ⟨x, by rw [hx, (cons.inj hx').1]⟩
    · cases x with
      | nil => exact absurd hx' (by simp [str])
      | cons t x => cases x <;> cases (cons.inj hx').2
  obtain ⟨x, rfl⟩ := hfront
  have hselect : r.head?.any (eqIgnoreAsciiCase · (str "SELECT")) = false := by
    cases r with
    | nil => rfl
    | cons t r => exact h.no_select
  have hdrop : r.dropWhile (· != str ")") = [] := by
    rw [dropWhile_eq_nil_iff]
    intro v hv
    rw [bne_iff_ne]
    rintro rfl
    exact h.no_paren (mem_append_left _ hv)
  rw [parseInList, if_neg (not_not.mpr rfl), if_neg (by simp [hselect]), hdrop]

/-- The first token behind the field is an operator. -/
theorem OperatorTokens.isOperator {op : Str} {tokens : List Str}
    (h : OperatorTokens field (op :: tokens) c) :
    toUppercase op ∈ [str "IN", str "NOT", str "IS", str "CONTAINS"] ∨
      (parseCmpOp op).isOk = true := by
  cases h with
  | inList hop | notIn hop | is hop | contains hop => exact .inl (by rw [hop]; decide)
  | compare hop => exact .inr (by rw [hop]; rfl)

/-- **What the condition parser can do at the seam.**  With `AND` and a column name behind the
tokens, a condition that is read either lies within the tokens, or takes the `AND` for its operand
and leaves the column name to come next, or runs on from a value list left open. -/
theorem parseWhereCondition_append {col : Str} (hcol : isKeyword col = false)
    (h : parseWhereCondition (ts ++ str "AND" :: col :: rest) = .ok (c, out)) :
    (∃ left, parseWhereCondition ts = .ok (c, left) ∧ out = left ++ str "AND" :: col :: rest) ∨
      out = col :: rest ∨ parseWhereCondition ts = .error unterminatedInList := by
  obtain ⟨field, tokens, htokens, heq⟩ := parseWhereCondition_eq_ok.mp h
  rcases append_eq_append_iff.mp (heq.trans (cons_append ..).symm) with
    ⟨x, hx, hx'⟩ | ⟨left, hts, hout⟩
  · rcases x with _ | ⟨t, _ | ⟨u, x⟩⟩
    · rw [append_nil] at hx
      exact .inl ⟨[], parseWhereCondition_eq_ok.mpr ⟨field, tokens, htokens, by simp [hx]⟩,
        hx'.symm⟩
    · cases hx'
      exact .inr (.inl rfl)
    -- The condition takes the column name too, so that it is in a list.
    cases hx'
    refine .inr (.inr ?_)
    rcases ts with _ | ⟨f, _ | ⟨op, r⟩⟩ <;>
      simp only [nil_append, cons_append, cons.injEq] at hx <;> obtain ⟨rfl, rfl⟩ := hx
    · rcases htokens.isOperator with hop | hop <;> simp [isKeyword, hop] at hcol
    · exact absurd htokens.isOperator (by decide)
    · have hand : str "AND" ≠ str "(" := by decide
      have hin : eqIgnoreAsciiCase (str "AND") (str "IN") = false := by decide
      have hnot : eqIgnoreAsciiCase (str "AND") (str "NOT") = false := by decide
      generalize hbehind : r ++ str "AND" :: col :: x = behind at htokens
      cases htokens with
      | inList hop hvalues =>
        rcases r with _ | ⟨t, r⟩
        · exact absurd (cons.inj hbehind).1 hand
        · obtain ⟨rfl, hr⟩ := cons.inj hbehind
          simp [parseWhereCondition, hop, parseInList_open hvalues hr, bind, Except.bind]
      | notIn hop ht hvalues =>
        rcases r with _ | ⟨t, _ | ⟨u, r⟩⟩
        · obtain ⟨rfl, -⟩ := cons.inj hbehind
          rw [hin] at ht
          cases ht
        · exact absurd (cons.inj (cons.inj hbehind).2).1 hand
        · obtain ⟨rfl, hr⟩ := cons.inj hbehind
          obtain ⟨rfl, hlist⟩ := cons.inj hr
          have hword : str "NOT" ≠ str "IN" := by decide
          simp [parseWhereCondition, hop, hword, ht, parseInList_open hvalues hlist, bind,
            Except.bind]
      | is hop htokens =>
        cases htokens with
        | valid | null => simp [append_eq_cons_iff] at hbehind
        | notValid hword | notNull hword =>
          rcases r with _ | ⟨t, r⟩
          · obtain ⟨rfl, -⟩ := cons.inj hbehind
            rw [hnot] at hword
            cases hword
          · simp [append_eq_cons_iff] at hbehind
      | contains | compare => simp [append_eq_cons_iff] at hbehind
  · exact .inl ⟨left, parseWhereCondition_eq_ok.mpr ⟨field, tokens, htokens, hts⟩, hout⟩

/-- The same at the seam of a group of alternatives. -/
theorem sepBy1_append {col : Str} (hcol : isKeyword col = false)
    (ts : List Str) : ∀ cs out,
    sepBy1 isOr parseWhereCondition (ts ++ str "AND" :: col :: rest) = .ok (cs, out) →
    (∃ left, sepBy1 isOr parseWhereCondition ts = .ok (cs, left) ∧
        out = left ++ str "AND" :: col :: rest) ∨
      out = col :: rest ∨ sepBy1 isOr parseWhereCondition ts = .error unterminatedInList := by
  have hor : isOr col = false := by
    simp only [isKeyword, Bool.or_eq_false_iff] at hcol
    exact hcol.1.1.2
  induction hlen : ts.length using Nat.strongRecOn generalizing ts with
  | _ n ih =>
    intro cs out h
    obtain ⟨c, out₁, tail, hfirst, htail, rfl⟩ := sepBy1_eq_ok.mp h
    rcases parseWhereCondition_append hcol hfirst with ⟨left, hts, rfl⟩ | rfl | hts
    · have hshort := parseWhereCondition_consumes ts c left hts
      cases left with
      | nil =>
        cases htail
        exact .inl ⟨[], sepBy1_eq_ok.mpr ⟨c, [], [], hts, rfl, rfl⟩, rfl⟩
      | cons t left =>
        rw [cons_append] at htail
        by_cases ht : isOr t = true
        · rw [sepTail_step parseWhereCondition_consumes ht] at htail
          simp only [length_cons] at hshort
          rcases ih left.length (by omega) left rfl tail out htail with
            ⟨left', hleft, hout⟩ | hout | hleft
          · refine .inl ⟨left', sepBy1_eq_ok.mpr ⟨c, t :: left, tail, hts, ?_, rfl⟩, hout⟩
            rw [sepTail_step parseWhereCondition_consumes ht, hleft]
          · exact .inr (.inl hout)
          · refine .inr (.inr ?_)
            rw [sepBy1, hts]
            show (do let x ← sepTail isOr parseWhereCondition (t :: left); _) = _
            rw [sepTail_step parseWhereCondition_consumes ht, hleft]
            rfl
        · have ht' : isOr t = false := by simpa using ht
          rw [sepTail_stop ht'] at htail
          cases htail
          refine .inl ⟨t :: left, sepBy1_eq_ok.mpr ⟨c, t :: left, [], hts, ?_, rfl⟩, rfl⟩
          exact sepTail_stop ht'
    · rw [sepTail_stop hor] at htail
      cases htail
      exact .inr (.inl rfl)
    · exact .inr (.inr (sepBy1_of_error hts))

/-- What a conjunct is, in terms of its alternatives. -/
theorem parseConjunct_eq_ok {w : WhereClause} :
    parseConjunct ts = .ok (w, out) ↔ ∃ cs left,
      sepBy1 isOr parseWhereCondition ts = .ok (cs, left) ∧ w = mkGroup cs ∧
        out = skipAnd left := by
  rw [parseConjunct, parseWhereOrGroup]
  cases hgroup : sepBy1 isOr parseWhereCondition ts with
  | error e => simp [bind, Except.bind]
  | ok read =>
    obtain ⟨cs, left⟩ := read
    simp only [bind, Except.bind, Except.ok.injEq, Prod.mk.injEq]
    constructor
    · rintro ⟨rfl, rfl⟩
      exact ⟨cs, left, ⟨rfl, rfl⟩, rfl, rfl⟩
    · rintro ⟨cs', left', ⟨rfl, rfl⟩, rfl, rfl⟩
      exact ⟨rfl, rfl⟩

theorem skipAnd_length_le (ts : List Str) : (skipAnd ts).length ≤ ts.length := by
  cases ts with
  | nil => exact Nat.le_refl _
  | cons t ts => rw [skipAnd]; split <;> simp

theorem parseConjunct_consumes : Consumes parseConjunct := by
  intro ts w out h
  obtain ⟨cs, left, hgroup, rfl, rfl⟩ := parseConjunct_eq_ok.mp h
  have hshort := sepBy1_consumes parseWhereCondition_consumes ts cs left hgroup
  have hskip := skipAnd_length_le left
  omega

/-- **The conditions behind the seam are conditions of the whole.**  If the tokens do not end in an
open value list, a filter that continues with `AND` and a column name is either rejected, or its
conditions end in the conditions read from that column name on. -/
theorem parseWhereConditions_append {col : Str} (hcol : isKeyword col = false)
    (ts : List Str) : ∀ ws, parseWhereConditions (ts ++ str "AND" :: col :: rest) = .ok ws →
    parseWhereConditions ts ≠ .error unterminatedInList →
    ∃ before grant, ws = before ++ grant ∧ parseWhereConditions (col :: rest) = .ok grant := by
  have hand : isAnd col = false := by
    simp only [isKeyword, Bool.or_eq_false_iff] at hcol
    exact hcol.1.1.1
  have hne : ∀ l : List Str, l ++ str "AND" :: col :: rest ≠ [] := by simp
  induction hlen : ts.length using Nat.strongRecOn generalizing ts with
  | _ n ih =>
    intro ws h hopen
    obtain ⟨w, after, ws, hitem, hmore, rfl⟩ := repeatAll_ok parseConjunct_consumes (hne ts) h
    obtain ⟨cs, out, hgroup, rfl, rfl⟩ := parseConjunct_eq_ok.mp hitem
    rcases sepBy1_append hcol ts cs out hgroup with ⟨left, hts, rfl⟩ | rfl | hts
    · -- the group lies within the tokens; go on with what it left of them
      have hnil : ts ≠ [] := by rintro rfl; cases hts
      have hshort := sepBy1_consumes parseWhereCondition_consumes ts cs left hts
      cases left with
      | nil => exact ⟨[mkGroup cs], ws, rfl, hmore⟩
      | cons t left =>
        have hrest : skipAnd (t :: left ++ str "AND" :: col :: rest) =
            skipAnd (t :: left) ++ str "AND" :: col :: rest := by
          rw [cons_append, skipAnd, skipAnd]
          split <;> rfl
        rw [hrest] at hmore
        have hskip := skipAnd_length_le (t :: left)
        have hopen' : parseWhereConditions (skipAnd (t :: left)) ≠ .error unterminatedInList := by
          intro hbad
          apply hopen
          rw [parseWhereConditions] at hbad ⊢
          rw [repeatAll_of_ok parseConjunct_consumes hnil
            (parseConjunct_eq_ok.mpr ⟨cs, _, hts, rfl, rfl⟩), hbad]
          rfl
        obtain ⟨before, grant, rfl, hgrant⟩ :=
          ih _ (by omega) (skipAnd (t :: left)) rfl ws hmore hopen'
        exact ⟨mkGroup cs :: before, grant, rfl, hgrant⟩
    · -- the `AND` was an operand; the column name comes next
      rw [skipAnd, hand] at hmore
      exact ⟨[mkGroup cs], ws, rfl, hmore⟩
    · exfalso
      apply hopen
      have hnil : ts ≠ [] := by
        rintro rfl
        revert hts
        decide
      apply repeatAll_of_error parseConjunct_consumes hnil
      rw [parseConjunct, parseWhereOrGroup, hts]
      rfl

end Lux
