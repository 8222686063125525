import Lux.RespGrammar

/-!
# When the RESP parser waits in vain

The parser answers with a request for more data both when the buffer is a proper
beginning of a command and when a header line can no longer become a number.
`Hopeless` lists the buffers of the second sort by their shape. For each of them
no continuation is a command, and every other buffer the parser waits for can be
completed: first the header line or payload that was cut, then empty bulk strings
for the arguments that are still missing.
-/

namespace Lux.Resp

open ByteCodec List Resp.Parser

/-! ## Beginnings of numbers -/

theorem digitsLoop_append (value : Int) (first second : Bytes) :
    digitsLoop value (first ++ second) =
      (digitsLoop value first).bind fun v => digitsLoop v second := by
  induction first generalizing value with
  | nil => rfl
  | cons byte first ih =>
    simp only [cons_append, digitsLoop]
    split
    · cases checkedI64 (value * 10) with
      | none => rfl
      | some scaled =>
        cases h : checkedI64 (scaled + (byte - zero).toNat) with
        | none => simp [h]
        | some next => simp [h, ih]
    · rfl

/-- The number behind a sign. -/
theorem parseI64Bytes_of_digits {line digits : Bytes} {negative : Bool} {v : Int}
    (hsign : signAndDigits line = (negative, digits)) (hne : digits ≠ [])
    (hv : digitsLoop 0 digits = some v) :
    parseI64Bytes line = some (if negative then -v else v) := by
  obtain ⟨-, hle, hlt⟩ := digitsLoop_spec le_rfl hv (by decide)
  cases digits with
  | nil => exact absurd rfl hne
  | cons d ds =>
    unfold parseI64Bytes
    simp only [hsign, hv]
    cases negative with
    | false => rfl
    | true => exact checkedI64_eq_some.mpr ⟨rfl, by omega, by omega⟩

/-- The sign of a longer line is the sign of its beginning. -/
theorem signAndDigits_append {byte : UInt8} {text : Bytes} (more : Bytes) :
    signAndDigits (byte :: text ++ more) =
      ((signAndDigits (byte :: text)).1, (signAndDigits (byte :: text)).2 ++ more) := by
  simp only [cons_append, signAndDigits]
  split
  · rfl
  · split <;> rfl

variable {more : Bytes}

/-- The beginning of a number is empty, a sign, or a number between zero and it. -/
theorem parseI64Bytes_beginning {text : Bytes} {n : Int}
    (h : parseI64Bytes (text ++ more) = some n) :
    text = [] ∨ text = [minus] ∨ text = [plus] ∨
      ∃ m, parseI64Bytes text = some m ∧ (0 ≤ m ∧ m ≤ n ∨ n ≤ m ∧ m ≤ 0) := by
  cases text with
  | nil => exact .inl rfl
  | cons byte text =>
    obtain ⟨negative, digits, v, hsign, -, hv, rfl⟩ := parseI64Bytes_eq_some h
    rw [signAndDigits_append, Prod.mk.injEq] at hsign
    obtain ⟨hnegative, rfl⟩ := hsign
    by_cases hne : (signAndDigits (byte :: text)).2 = []
    · -- Only a sign has been read.
      obtain hline | ⟨sign, hcase, hline⟩ := signAndDigits_cases (byte :: text)
      · rw [hne] at hline
        cases hline
      · rw [hne] at hline
        rcases hcase with rfl | rfl
        · exact .inr (.inl hline)
        · exact .inr (.inr (.inl hline))
    rw [digitsLoop_append] at hv
    obtain ⟨u, hu, hv⟩ := Option.bind_eq_some_iff.mp hv
    obtain ⟨-, hzero, hlt⟩ := digitsLoop_spec le_rfl hu (by decide)
    obtain ⟨-, hle, -⟩ := digitsLoop_spec hzero hv hlt
    have hbegins := Prod.ext (y := (negative, (signAndDigits (byte :: text)).2)) hnegative rfl
    refine .inr (.inr (.inr ⟨_, parseI64Bytes_of_digits hbegins hne hu, ?_⟩))
    cases negative with
    | false => exact .inl ⟨hzero, hle⟩
    | true => exact .inr ⟨neg_le_neg hle, by simpa using hzero⟩

/-! ## Header lines that can be completed -/

/-- The text can still become a header line with a number from the range. -/
def Continues (range : Int → Prop) (text : Bytes) : Prop :=
  text = [] ∨ text = [minus] ∨ text = [plus] ∨
  (∃ n, parseI64Bytes text = some n ∧ range n) ∨
  (∃ digits n, text = digits ++ [cr] ∧ parseI64Bytes digits = some n ∧ range n)

/-- The range holds with a number every number between it and zero. -/
def Reaching (range : Int → Prop) : Prop :=
  range 0 ∧ ∀ n m, range n → (0 ≤ m ∧ m ≤ n ∨ n ≤ m ∧ m ≤ 0) → range m

section

variable {range : Int → Prop} {text : Bytes}

/-- At most three bytes are missing. -/
theorem Continues.exists_line (h : Continues range text) (hrange : Reaching range) :
    ∃ more n, IntLine (text ++ more) n ∧ range n ∧ more.length ≤ 3 := by
  have hzero : ∀ sign, parseI64Bytes (sign ++ [zero]) = some 0 →
      ∃ more n, IntLine (sign ++ more) n ∧ range n ∧ more.length ≤ 3 := by
    intro sign hparse
    exact ⟨[zero] ++ crlf, 0, ⟨sign ++ [zero], by rw [append_assoc], hparse⟩, hrange.1, by decide⟩
  rcases h with rfl | rfl | rfl | ⟨n, hparse, hn⟩ | ⟨digits, n, rfl, hparse, hn⟩
  · exact hzero [] (by decide)
  · exact hzero [minus] (by decide)
  · exact hzero [plus] (by decide)
  · exact ⟨crlf, n, ⟨text, rfl, hparse⟩, hn, by decide⟩
  · exact ⟨[lf], n, ⟨digits, by rw [append_assoc]; rfl, hparse⟩, hn, by decide⟩

/-- A complete line with a number is not unfinished. -/
theorem UnfinishedLine.not_line {head more : Bytes} {n : Int} (hline : IntLine head n) :
    ¬ UnfinishedLine (head ++ more) := by
  obtain ⟨digits, rfl, hparse⟩ := hline
  have hfind := findCrlf_append (cr_not_mem_of_parse hparse) more
  intro h
  cases h with
  | cut h => rw [hfind] at h; cases h
  | noNumber h hnone =>
    rw [hfind, Option.some.injEq] at h
    rw [← h, append_assoc, take_left, hparse] at hnone
    cases hnone

/-- Only what continues can become a header line. -/
theorem UnfinishedLine.continues (h : UnfinishedLine text) (hrange : Reaching range)
    {more head after : Bytes} {n : Int} (hline : IntLine head n) (hn : range n)
    (heq : text ++ more = head ++ after) : Continues range text := by
  rcases append_eq_append_iff.mp heq with ⟨missing, hhead, -⟩ | ⟨extra, htext, -⟩
  swap
  · exact absurd (htext ▸ h) (UnfinishedLine.not_line hline)
  obtain ⟨digits, rfl, hparse⟩ := hline
  rcases append_eq_append_iff.mp hhead with ⟨ending, htext, hcrlf⟩ | ⟨rest, hdigits, -⟩
  · -- The text reaches into the terminator.
    cases ending with
    | nil =>
      rw [append_nil] at htext
      exact .inr (.inr (.inr (.inl ⟨n, htext ▸ hparse, hn⟩)))
    | cons a ending =>
      obtain ⟨rfl, hlf⟩ := cons.inj hcrlf
      cases ending with
      | nil => exact .inr (.inr (.inr (.inr ⟨digits, n, htext, hparse, hn⟩)))
      | cons b ending =>
        obtain ⟨rfl, hnil⟩ := cons.inj hlf
        obtain ⟨rfl, -⟩ := append_eq_nil_iff.mp hnil.symm
        have hdone := @UnfinishedLine.not_line _ [] _ ⟨digits, rfl, hparse⟩
        rw [append_nil] at hdone
        exact absurd (htext ▸ h) hdone
  · rw [hdigits] at hparse
    rcases parseI64Bytes_beginning hparse with h | h | h | ⟨m, hm, hbetween⟩
    · exact .inl h
    · exact .inr (.inl h)
    · exact .inr (.inr (.inl h))
    · exact .inr (.inr (.inr (.inl ⟨m, hm, hrange.2 n m hn hbetween⟩)))

end

/-! ## Texts are read in one way -/

theorem IntLine.unique {head head' more' : Bytes} {n n' : Int} (h : IntLine head n)
    (h' : IntLine head' n') (heq : head ++ more = head' ++ more') :
    head = head' ∧ n = n' ∧ more = more' := by
  obtain ⟨digits, rfl, hparse⟩ := h
  obtain ⟨digits', rfl, hparse'⟩ := h'
  have hfind := findCrlf_append (cr_not_mem_of_parse hparse) more
  rw [heq, findCrlf_append (cr_not_mem_of_parse hparse') more', Option.some.injEq] at hfind
  obtain ⟨hhead, hmore⟩ := append_inj heq (by simp [hfind])
  have hdigits := append_cancel_right hhead
  subst hdigits
  rw [hparse, Option.some.injEq] at hparse'
  exact ⟨rfl, hparse', hmore⟩

variable {limits : Limits} {raw : Bytes} {args : List Bytes}

theorem BulkString.unique {raw' data data' more' : Bytes} (h : BulkString limits raw data)
    (h' : BulkString limits raw' data') (heq : raw ++ more = raw' ++ more') :
    raw = raw' ∧ more = more' := by
  have hcons : ∀ {head head' rest rest' : Bytes},
      dollar :: head ++ rest = dollar :: head' ++ rest' →
      head ++ rest = head' ++ rest' := fun h => (cons.inj h).2
  cases h with
  | null hline hneg =>
    cases h' with
    | null hline' hneg' =>
      obtain ⟨rfl, -, hmore⟩ := hline.unique hline' (hcons heq)
      exact ⟨rfl, hmore⟩
    | data hline' hle' =>
      rw [append_assoc] at heq
      obtain ⟨-, hn, -⟩ := hline.unique hline' (hcons heq)
      omega
  | data hline hle =>
    rw [append_assoc] at heq
    cases h' with
    | null hline' hneg' =>
      obtain ⟨-, hn, -⟩ := hline.unique hline' (hcons heq)
      omega
    | data hline' hle' =>
      simp only [append_assoc] at heq
      obtain ⟨rfl, hn, hrest⟩ := hline.unique hline' (hcons heq)
      obtain ⟨rfl, hcrlf⟩ := append_inj hrest (by omega)
      exact ⟨rfl, append_cancel_left hcrlf⟩

/-- Behind the bulk strings of a shorter array a longer one has one more. -/
theorem BulkStrings.next {raws raws' more' : Bytes} {datas datas' : List Bytes}
    (h : BulkStrings limits raws datas) (h' : BulkStrings limits raws' datas')
    (hlt : datas.length < datas'.length) (heq : raws ++ more = raws' ++ more') :
    ∃ raw data after, BulkString limits raw data ∧ more = raw ++ after := by
  induction h generalizing raws' datas' with
  | nil =>
    cases h' with
    | nil => exact absurd hlt (lt_irrefl _)
    | @cons raw _ data _ head tail =>
      rw [append_assoc] at heq
      exact ⟨raw, data, _, head, heq⟩
  | cons head tail ih =>
    cases h' with
    | nil => exact absurd hlt (Nat.not_lt_zero _)
    | cons head' tail' =>
      rw [append_assoc, append_assoc] at heq
      obtain ⟨-, hrest⟩ := head.unique head' heq
      exact ih tail' (Nat.lt_of_succ_lt_succ hlt) hrest

/-! ## Words -/

/-- A longer line is split into the same pieces, of which the last may be longer,
and further ones. -/
theorem splitOnP_append (sep : UInt8 → Bool) (line more : Bytes) :
    ∃ first first' pieces pieces', line.splitOnP sep = first :: pieces ∧
      (line ++ more).splitOnP sep = (first ++ first') :: pieces' ∧
      (pieces.filter (· ≠ [])).length ≤ (pieces'.filter (· ≠ [])).length := by
  induction line with
  | nil =>
    obtain ⟨first, pieces, h⟩ := exists_cons_of_ne_nil (splitOnP_ne_nil sep more)
    exact ⟨[], first, [], pieces, splitOnP_nil, h, Nat.zero_le _⟩
  | cons byte line ih =>
    obtain ⟨first, first', pieces, pieces', hline, hmore, hle⟩ := ih
    rw [cons_append, splitOnP_cons_eq_if_modifyHead, splitOnP_cons_eq_if_modifyHead, hline, hmore]
    by_cases hsep : sep byte = true
    · rw [if_pos hsep, if_pos hsep]
      refine ⟨[], [], first :: pieces, (first ++ first') :: pieces', rfl, rfl, ?_⟩
      by_cases hfirst : first = []
      · rw [filter_cons_of_neg (by simpa using hfirst)]
        exact hle.trans (Sublist.length_le ((sublist_cons_self _ _).filter _))
      · rw [filter_cons_of_pos (by simpa using hfirst),
          filter_cons_of_pos (by simp [hfirst])]
        exact Nat.succ_le_succ hle
    · rw [if_neg hsep, if_neg hsep]
      exact ⟨byte :: first, first', pieces, pieces', rfl, rfl, hle⟩

theorem stripCr_append (line more : Bytes) :
    ∃ rest, stripCr (line ++ more) = stripCr line ++ rest := by
  have hself : ∃ rest, line = stripCr line ++ rest := by
    unfold stripCr
    split
    · rename_i h
      exact ⟨[cr], (dropLast_append_getLast? cr h).symm⟩
    · exact ⟨[], (append_nil _).symm⟩
  obtain ⟨rest, hrest⟩ := hself
  by_cases hmore : more = []
  · exact ⟨[], by rw [hmore, append_nil, append_nil]⟩
  -- The stripped byte, if any, is one of the new ones.
  refine ⟨rest ++ stripCr more, ?_⟩
  rw [← append_assoc, ← hrest]
  unfold stripCr
  rw [getLast?_append_of_ne_nil _ hmore, dropLast_append_of_ne_nil hmore]
  split <;> rfl

/-- A longer line has at least as many words. -/
theorem words_length_append (line more : Bytes) :
    (words line).length ≤ (words (line ++ more)).length := by
  obtain ⟨rest, hrest⟩ := stripCr_append line more
  obtain ⟨first, first', pieces, pieces', hline, hmore, hle⟩ :=
    splitOnP_append (· == space) (stripCr line) rest
  unfold words
  rw [hrest, splitOn, splitOn, hline, hmore]
  by_cases hfirst : first = []
  · rw [filter_cons_of_neg (by simpa using hfirst)]
    exact hle.trans (Sublist.length_le ((sublist_cons_self _ _).filter _))
  · rw [filter_cons_of_pos (by simpa using hfirst), filter_cons_of_pos (by simp [hfirst])]
    exact Nat.succ_le_succ hle

/-! ## Waiting -/

/-- The counts of an array. -/
def CountRange (limits : Limits) (n : Int) : Prop := 0 ≤ n ∧ n ≤ limits.maxArrayLen

/-- The lengths of a bulk string. -/
def LengthRange (limits : Limits) (n : Int) : Prop := n ≤ limits.maxBulkLen

theorem reaching_countRange : Reaching (CountRange limits) := by
  refine ⟨⟨le_rfl, by omega⟩, ?_⟩
  rintro n m ⟨hn, hle⟩ hbetween
  exact ⟨by omega, by omega⟩

theorem reaching_lengthRange : Reaching (LengthRange limits) := by
  refine ⟨Int.natCast_nonneg _, ?_⟩
  intro n m hn hbetween
  unfold LengthRange at hn ⊢
  omega

section

variable (limits : Limits)

/-- A text the parser waits for, expecting a bulk string, though none starts so. -/
inductive HopelessBulk : Bytes → Prop
  | length {text : Bytes} (h : UnfinishedLine text) (hno : ¬ Continues (LengthRange limits) text) :
      HopelessBulk (dollar :: text)
  | terminator {head rest : Bytes} {n : Nat} (hline : IntLine head n) (hle : n ≤ limits.maxBulkLen)
      (hlen : rest.length = n + 1) (hcr : rest.getLast? ≠ some cr) :
      HopelessBulk (dollar :: head ++ rest)

/-- A buffer the parser waits for though no command starts so: too many words on an
unfinished line, a count or length that can no longer become one, a negative count,
or a payload followed by another byte than `\r`. -/
inductive Hopeless : Bytes → Prop
  | words {line : Bytes} (hlf : lf ∉ line) (hstar : line.head? ≠ some star)
      (hlt : limits.maxArrayLen < (Parser.words line).length) : Hopeless line
  | count {text : Bytes} (h : UnfinishedLine text) (hno : ¬ Continues (CountRange limits) text) :
      Hopeless (star :: text)
  | negative {raw : Bytes} (more : Bytes) (h : NegativeCount raw) : Hopeless (raw ++ more)
  | bulk {head raws rest : Bytes} {n : Nat} {args : List Bytes} (hline : IntLine head n)
      (hle : n ≤ limits.maxArrayLen) (hbulks : BulkStrings limits raws args)
      (hlt : args.length < n) (h : HopelessBulk limits rest) :
      Hopeless (star :: head ++ (raws ++ rest))

/-- The parser asks for more data. -/
def Waits (buf : Bytes) : Prop :=
  ∃ q, (Parser.withLimits limits buf).parseCommandArgs = (.ok none, q)

/-- Some continuation of the buffer is read as a command. -/
def Completes (buf : Bytes) : Prop :=
  ∃ more args q, (Parser.withLimits limits (buf ++ more)).parseCommandArgs = (.ok (some args), q)

end

/-! ### In vain -/

/-- No bulk string starts with a hopeless text. -/
theorem HopelessBulk.not_begins {rest data after : Bytes} (h : HopelessBulk limits rest)
    (hbulk : BulkString limits raw data) : rest ++ more ≠ raw ++ after := by
  have hhead : ∃ head tail n, raw = dollar :: head ++ tail ∧ IntLine head n ∧
      LengthRange limits n := by
    cases hbulk with
    | null hline hneg => exact ⟨_, [], _, (append_nil _).symm, hline, by unfold LengthRange; omega⟩
    | data hline hle => exact ⟨_, _, _, rfl, hline, Int.ofNat_le.mpr hle⟩
  intro heq
  cases h with
  | length h hno =>
    obtain ⟨head, tail, n, rfl, hline, hn⟩ := hhead
    rw [append_assoc] at heq
    exact hno (h.continues reaching_lengthRange hline hn (cons.inj heq).2)
  | @terminator head rest n hline hle hlen hcr =>
    cases hbulk with
    | null hline' hneg =>
      rw [append_assoc] at heq
      obtain ⟨-, hn, -⟩ := hline.unique hline' (cons.inj heq).2
      omega
    | data hline' hle' =>
      simp only [append_assoc] at heq
      obtain ⟨-, hn, hrest⟩ := hline.unique hline' (cons.inj heq).2
      -- The byte behind the payload is the last one that has arrived.
      have hsplit : rest ++ more = (data ++ [cr]) ++ (lf :: after) := by
        rw [hrest, append_assoc]
        rfl
      obtain ⟨rfl, -⟩ := append_inj hsplit (by simp; omega)
      exact hcr (by simp)

/-- A command that starts with `*` is an array. -/
theorem Command.of_star {text after : Bytes} (h : Command limits raw args)
    (heq : star :: text = raw ++ after) :
    ∃ head raws, text = head ++ (raws ++ after) ∧ IntLine head args.length ∧
      args.length ≤ limits.maxArrayLen ∧ BulkStrings limits raws args := by
  cases h with
  | @inline line hlf hstar hle =>
    cases line with
    | nil => exact absurd (cons.inj heq).1 (by decide)
    | cons byte line => exact absurd (by rw [(cons.inj heq).1]; rfl) hstar
  | array hline hle hbulks =>
    rw [append_assoc] at heq
    exact ⟨_, _, (cons.inj heq).2, hline, hle, hbulks⟩

variable {buf : Bytes}

/-- No command starts with a hopeless buffer. -/
theorem Hopeless.not_begins {after : Bytes} (h : Hopeless limits buf)
    (hcommand : Command limits raw args) : buf ++ more ≠ raw ++ after := by
  intro heq
  cases h with
  | words hlf hstar hlt =>
    cases hcommand with
    | @inline line hlf' hstar' hle =>
      rw [append_assoc] at heq
      have hline : ∃ rest, line = buf ++ rest := by
        rcases append_eq_append_iff.mp heq with ⟨rest, hline, -⟩ | ⟨rest, hbuf, hrest⟩
        · exact ⟨rest, hline⟩
        cases rest with
        | nil => exact ⟨[], by rw [hbuf, append_nil, append_nil]⟩
        | cons byte rest =>
          have hbyte : lf = byte := (cons.inj hrest).1
          exact absurd (by rw [hbuf, hbyte]; simp) hlf
      obtain ⟨rest, rfl⟩ := hline
      have hwords := words_length_append buf rest
      omega
    | array hline hle hbulks =>
      cases buf with
      | nil => exact absurd hlt (Nat.not_lt_zero _)
      | cons byte buf => exact absurd (by rw [(cons.inj heq).1]; rfl) hstar
  | count h hno =>
    obtain ⟨head, raws, htext, hline, hle, -⟩ := hcommand.of_star heq
    exact hno (h.continues reaching_countRange hline ⟨by omega, by omega⟩ htext)
  | negative extra h =>
    obtain ⟨head, n, rfl, hline, hneg⟩ := h
    rw [append_assoc] at heq
    obtain ⟨head', raws, htext, hline', -, -⟩ := hcommand.of_star heq
    obtain ⟨-, hn, -⟩ := hline.unique hline' htext
    omega
  | @bulk head raws rest n args hline hle hbulks hlt h =>
    rw [append_assoc] at heq
    obtain ⟨head', raws', htext, hline', -, hbulks'⟩ := hcommand.of_star heq
    obtain ⟨-, hn, hraws⟩ := hline.unique hline' htext
    rw [append_assoc] at hraws
    obtain ⟨raw, data, after', hbulk, hrest⟩ := hbulks.next hbulks' (by omega) hraws
    exact h.not_begins hbulk hrest

/-- **No continuation of a hopeless buffer is a command.** -/
theorem Hopeless.not_completes (h : Hopeless limits buf) : ¬ Completes limits buf := by
  rintro ⟨more, args, q, hparse⟩
  rcases parseCommandArgs_cases (.withLimits limits (buf ++ more)) with
    ⟨raw, args', after, heq, hcommand, -⟩ | ⟨_, _, _, _, -, -, hp⟩ | ⟨_, _, -, -, hp⟩ | ⟨-, hp⟩ |
    ⟨-, _, _, hp⟩
  · exact h.not_begins hcommand heq
  all_goals
    rw [hp] at hparse
    cases hparse

namespace Parser

theorem readLineInt_of_unfinished {p : Parser} (h : UnfinishedLine p.rest) :
    ∃ q, p.readLineInt = (none, q) := by
  unfold readLineInt
  cases h with
  | cut h => exact ⟨p, by rw [h]⟩
  | @noNumber k h hparse => exact ⟨p.advance (k + 2), by rw [h]; simp [hparse]⟩

/-- The parser waits for the rest of a bulk string although none starts so. -/
theorem parseBulkString_of_hopeless {p : Parser} (h : HopelessBulk p.toLimits p.rest)
    (hword : p.pos + p.rest.length + 1 ≤ usizeMax) : ∃ q, p.parseBulkString = (.ok none, q) := by
  generalize hrest : p.rest = rest at h hword
  cases h with
  | @length text h hno =>
    have hnext : (p.advance 1).rest = text := by rw [rest_advance, hrest]; rfl
    obtain ⟨q, hq⟩ := readLineInt_of_unfinished (p := p.advance 1) (hnext ▸ h)
    rw [parseBulkString, hrest]
    simp [hq]
  | @terminator head rest n hline hle hlen hcr =>
    refine ⟨p.advance (dollar :: head).length, ?_⟩
    rw [parseBulkString_of_line hline hrest, Int.toNat_natCast]
    have hshort : (p.advance (dollar :: head).length).rest.length < n + 2 := by
      rw [rest_advance_of_eq hrest]
      omega
    rw [length_append] at hword
    rcases bulkPayload_cases (p.advance (dollar :: head).length) n with
      ⟨hmax, -⟩ | ⟨hbig, -⟩ | ⟨-, -, hpayload⟩ | ⟨-, payload, ending, more, heq, hn, hending, -⟩
    · exact absurd hle (not_le.mpr hmax)
    · rw [advance_pos] at hbig
      omega
    · exact hpayload
    · rw [heq, length_append, length_append] at hshort
      omega

end Parser

/-- The parser waits for the rest of a hopeless buffer. -/
theorem Hopeless.waits (hmem : buf.length < isizeMax) (h : Hopeless limits buf) :
    Waits limits buf := by
  cases h with
  | words hlf hstar hlt =>
    refine ⟨.withLimits limits buf, ?_⟩
    rw [parseCommandArgs_inline (p := .withLimits limits buf) hstar, parseInlineArgs]
    simp [idxOf?_eq_none_iff.mpr hlf]
  | @count text h hno =>
    obtain ⟨q, hq⟩ := readLineInt_of_unfinished
      (p := (withLimits limits (star :: text)).advance 1) h
    refine ⟨{ q with pos := 0 }, ?_⟩
    rw [parseCommandArgs]
    rw [parseMultibulkArgs, hq]
    rfl
  | negative more h => exact ⟨_, parseCommandArgs_of_negative h rfl⟩
  | @bulk head raws rest n args hline hle hbulks hlt h =>
    have hsplit : (withLimits limits (star :: head ++ (raws ++ rest))).rest =
        star :: head ++ raws ++ rest := (append_assoc _ _ _).symm
    rw [← append_assoc, length_append] at hmem
    have hword : (star :: head ++ raws).length + rest.length + 1 ≤ usizeMax := by
      unfold isizeMax at hmem
      unfold usizeMax
      omega
    have hrest := rest_advance_of_eq hsplit
    obtain ⟨q, hq⟩ := parseBulkString_of_hopeless
      (p := (withLimits limits _).advance _) (hrest ▸ h) (by
        rw [hrest, advance_pos, withLimits, Nat.zero_add]
        exact hword)
    obtain ⟨m, rfl⟩ : ∃ m, n = args.length + (m + 1) := ⟨n - args.length - 1, by omega⟩
    refine ⟨{ q with pos := 0 }, ?_⟩
    rw [parseCommandArgs_of_array (p := .withLimits limits _) hline hle hbulks hsplit
      (by rw [withLimits, Nat.zero_add]; omega), bulkLoop, hq]
    rfl

/-! ### With success -/

/-- An empty argument: the null bulk string. -/
def nullBulk : Bytes := ascii "$-1\r\n"

theorem intLine_null : IntLine (ascii "-1\r\n") (-1) := ⟨ascii "-1", by decide, by decide⟩

theorem bulkString_null : BulkString limits nullBulk [] := .null intLine_null (by decide)

theorem BulkStrings.snoc {raws data : Bytes} {datas : List Bytes}
    (h : BulkStrings limits raws datas) (hbulk : BulkString limits raw data) :
    BulkStrings limits (raws ++ raw) (datas ++ [data]) := by
  induction h with
  | nil =>
    have hone := BulkStrings.cons hbulk .nil
    rwa [append_nil] at hone
  | cons head tail ih =>
    rw [append_assoc]
    exact .cons head ih

/-- Missing arguments can be supplied as null bulk strings, wherever they stand. -/
theorem Parser.bulkLoop_nulls (saved n : Nat) (args : List Bytes) {p : Parser}
    (hrest : p.rest = (List.replicate n nullBulk).flatten) :
    ∃ args' q, bulkLoop saved n args p = (.ok (some args'), q) := by
  induction n generalizing args p with
  | zero => exact ⟨args, p, rfl⟩
  | succ n ih =>
    have hone := parseBulkString_of_line intLine_null hrest
    rw [bulkLoop, hone]
    exact ih _ (rest_advance_of_eq hrest)

/-- An array with some of its arguments is the beginning of a command. -/
theorem completes_array {head raws : Bytes} {n : Nat} (hline : IntLine head n)
    (hle : n ≤ limits.maxArrayLen) (hbulks : BulkStrings limits raws args) (hargs : args.length ≤ n)
    (hword : (star :: head ++ raws).length ≤ usizeMax) :
    Completes limits (star :: head ++ raws) := by
  obtain ⟨m, rfl⟩ := Nat.exists_eq_add_of_le hargs
  let nulls := (replicate m nullBulk).flatten
  have hrest := rest_withLimits limits (star :: head ++ raws ++ nulls)
  obtain ⟨args', q, hnulls⟩ := bulkLoop_nulls 0 m args (rest_advance_of_eq hrest)
  refine ⟨nulls, args', q, ?_⟩
  rw [parseCommandArgs_of_array (p := .withLimits limits _) hline hle hbulks hrest
    (by rwa [withLimits, Nat.zero_add])]
  exact hnulls

/-- What has a continuation that can be completed can be completed. -/
theorem Completes.of_append (h : Completes limits (buf ++ more)) : Completes limits buf := by
  obtain ⟨more', args, q, hq⟩ := h
  exact ⟨more ++ more', args, q, by rw [← append_assoc]; exact hq⟩

/-- A header line with a length in range is the beginning of a bulk string. -/
theorem exists_bulk_of_line {head : Bytes} {n : Int} (hline : IntLine head n)
    (hn : LengthRange limits n) :
    ∃ more data, BulkString limits (dollar :: head ++ more) data ∧ more.length ≤ 2 ^ 63 + 1 := by
  have hlt : n < 2 ^ 63 := by
    obtain ⟨digits, -, hparse⟩ := hline
    exact parseI64Bytes_lt hparse
  by_cases hneg : n < 0
  · exact ⟨[], [], by rw [append_nil]; exact .null hline hneg, Nat.zero_le _⟩
  obtain ⟨len, rfl⟩ : ∃ len : Nat, n = len := ⟨n.toNat, by omega⟩
  have hlen : (replicate len zero).length = len := length_replicate
  refine ⟨replicate len zero ++ crlf, replicate len zero, ?_, ?_⟩
  · exact .data (by rwa [hlen]) (by rw [hlen]; exact Int.ofNat_le.mp hn)
  · rw [length_append]
    simp only [crlf, length_cons, length_nil]
    omega

/-- What is not hopeless can become a bulk string. -/
theorem UnfinishedBulk.exists_bulk {rest : Bytes} (h : UnfinishedBulk limits rest)
    (hhope : ¬ HopelessBulk limits rest) :
    ∃ more data, BulkString limits (rest ++ more) data ∧
      (rest ++ more).length ≤ rest.length + 2 ^ 63 + 4 := by
  cases h with
  | empty => exact ⟨nullBulk, [], bulkString_null, by decide⟩
  | @header text h =>
    have hcontinues : Continues (LengthRange limits) text := by
      by_contra hno
      exact hhope (.length h hno)
    obtain ⟨more, n, hline, hn, hmore⟩ := hcontinues.exists_line reaching_lengthRange
    obtain ⟨more', data, hbulk, hmore'⟩ := exists_bulk_of_line hline hn
    refine ⟨more ++ more', data, ?_, ?_⟩
    · rw [← append_assoc]
      exact hbulk
    · rw [length_append, length_append]
      omega
  | @payload head rest n hline hle hshort =>
    have hlt : (n : Int) < 2 ^ 63 := by
      obtain ⟨digits, -, hparse⟩ := hline
      exact parseI64Bytes_lt hparse
    have hdone : ∀ more payload, rest ++ more = payload ++ crlf → payload.length = n →
        BulkString limits (dollar :: head ++ rest ++ more) payload := by
      intro more payload heq hlen
      rw [append_assoc, heq]
      exact .data (by rwa [hlen]) (by rwa [hlen])
    by_cases hcut : rest.length ≤ n
    · -- The payload itself is cut.
      have hlen : (rest ++ replicate (n - rest.length) zero).length = n := by
        rw [length_append, length_replicate]
        omega
      refine ⟨replicate (n - rest.length) zero ++ crlf, _,
        hdone _ _ (append_assoc _ _ _).symm hlen, ?_⟩
      simp only [crlf, length_append, length_replicate, length_cons, length_nil]
      omega
    have hlen : rest.length = n + 1 := by omega
    have hcr : rest.getLast? = some cr := by
      by_contra hcr
      exact hhope (.terminator hline hle hlen hcr)
    have hsplit := dropLast_append_getLast? cr hcr
    refine ⟨[lf], rest.dropLast, hdone _ _ ?_ (by rw [length_dropLast]; omega), ?_⟩
    · conv_lhs => rw [← hsplit, append_assoc]
      rfl
    · simp only [length_append, length_cons, length_nil]
      omega

/-- **Every other buffer the parser waits for can be completed.** -/
theorem Unfinished.completes (hroom : buf.length + 4 ≤ isizeMax) (h : Unfinished limits buf)
    (hhope : ¬ Hopeless limits buf) : Completes limits buf := by
  unfold isizeMax at hroom
  cases h with
  | line hlf hstar =>
    have hwords : ¬ limits.maxArrayLen < (words buf).length :=
      fun hlt => hhope (.words hlf hstar hlt)
    refine ⟨[lf], words buf, (withLimits limits (buf ++ [lf])).advance (buf ++ [lf]).length, ?_⟩
    rw [parseCommandArgs_of_line (p := .withLimits limits (buf ++ [lf])) hlf hstar
      (append_nil _).symm]
    exact if_neg hwords
  | @header text h =>
    have hcontinues : Continues (CountRange limits) text := by
      by_contra hno
      exact hhope (.count h hno)
    obtain ⟨more, n, hline, ⟨hzero, hn⟩, hmore⟩ := hcontinues.exists_line reaching_countRange
    obtain ⟨count, rfl⟩ : ∃ count : Nat, n = count := ⟨n.toNat, by omega⟩
    have hword : (star :: (text ++ more) ++ []).length ≤ usizeMax := by
      rw [length_cons] at hroom
      rw [append_nil, length_cons, length_append]
      unfold usizeMax
      omega
    have hdone := completes_array hline (Int.ofNat_le.mp hn) .nil (Nat.zero_le _) hword
    rw [append_nil] at hdone
    exact @Completes.of_append more limits (star :: text) hdone
  | @bulks head raws rest n args hline hle hbulks hlt hrest =>
    have hbulk : ¬ HopelessBulk limits rest := fun h => hhope (.bulk hline hle hbulks hlt h)
    obtain ⟨more, data, htext, hlen⟩ := hrest.exists_bulk hbulk
    have hword : (star :: head ++ (raws ++ (rest ++ more))).length ≤ usizeMax := by
      rw [length_append, length_append] at hroom
      rw [length_append, length_append]
      unfold usizeMax
      omega
    have hdone := completes_array hline hle (hbulks.snoc htext)
      (by rw [length_append]; exact hlt) hword
    rw [← append_assoc raws, ← append_assoc] at hdone
    exact hdone.of_append

/-- **When waiting helps.**  If the parser asks for more data, some continuation of
the buffer is a command, exactly if the buffer is not hopeless. The buffer leaves
room in memory for the rest of a header line. -/
theorem waiting_helps_iff (limits : Limits) (buf : Bytes) (hroom : buf.length + 4 ≤ isizeMax) :
    (Waits limits buf → Completes limits buf) ↔ ¬ Hopeless limits buf := by
  constructor
  · intro h hhopeless
    exact hhopeless.not_completes (h (hhopeless.waits (by omega)))
  · rintro hhope ⟨q, hq⟩
    rcases parseCommandArgs_cases (.withLimits limits buf) with
      ⟨_, _, _, -, -, hp⟩ | ⟨_, _, _, _, -, -, hp⟩ | ⟨raw, more, hbuf, hneg, -⟩ | ⟨h, -⟩ |
      ⟨-, _, _, hp⟩
    · rw [hp] at hq
      cases hq
    · rw [hp] at hq
      cases hq
    · have hbuf' : buf = raw ++ more := hbuf
      exact absurd (hbuf' ▸ .negative more hneg) hhope
    · exact Unfinished.completes hroom h hhope
    · rw [hp] at hq
      cases hq

/-- The `*` of an array can be completed. -/
theorem waiting_helps_star : Waits defaultLimits [star] ∧ Completes defaultLimits [star] := by
  have hwaits : Waits defaultLimits [star] := ⟨.withLimits defaultLimits [star], by decide⟩
  refine ⟨hwaits, (waiting_helps_iff defaultLimits [star] (by decide)).mpr ?_ hwaits⟩
  have hline : ∀ {head more : Bytes} {n : Int}, IntLine head n → [] ≠ head ++ more := by
    rintro head more n ⟨digits, rfl, -⟩ h
    simp [crlf] at h
  intro h
  generalize hbuf : [star] = buf at h
  cases h with
  | words hlf hstar hlt => exact hstar (hbuf ▸ rfl)
  | count h hno => exact hno (.inl (cons.inj hbuf).2.symm)
  | negative more h =>
    obtain ⟨head, n, rfl, hint, -⟩ := h
    exact hline hint (cons.inj hbuf).2
  | bulk hint hle hbulks hlt h => exact hline hint (cons.inj hbuf).2

/-- A count line that is no number is waited for, and nothing completes it. -/
theorem waits_for_no_number :
    Waits defaultLimits (ascii "*x\r\n") ∧ ¬ Completes defaultLimits (ascii "*x\r\n") := by
  have hno : ¬ Continues (CountRange defaultLimits) (ascii "x\r\n") := by
    rintro (h | h | h | ⟨n, h, -⟩ | ⟨digits, n, h, -, -⟩)
    · exact absurd h (by decide)
    · exact absurd h (by decide)
    · exact absurd h (by decide)
    · exact absurd (h.symm.trans (by decide : parseI64Bytes (ascii "x\r\n") = none)) (by simp)
    · exact absurd (congrArg getLast? h) (by rw [getLast?_concat]; decide)
  have hhopeless : Hopeless defaultLimits (ascii "*x\r\n") :=
    .count (.noNumber (k := 1) (by decide) (by decide)) hno
  exact ⟨hhopeless.waits (by decide), hhopeless.not_completes⟩

end Lux.Resp
