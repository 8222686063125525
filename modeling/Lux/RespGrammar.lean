import Lux.RespParser

/-!
# The texts the RESP parser distinguishes

The accepted texts, described without the parser. `Command`, `Broken` and
`NegativeCount` are three kinds of text that fix the answer whatever follows
them. The parser answers by the kind of text its buffer starts with: one lemma
for each kind says so in front of every rest, and `parseCommandArgs_cases` says
that no other answer than a plain request for more data is left.
-/

namespace Lux.Resp

open ByteCodec List

/-! ## The texts -/

/-- A header line with the number `n`. -/
def IntLine (raw : Bytes) (n : Int) : Prop :=
  ∃ text, raw = text ++ crlf ∧ parseI64Bytes text = some n

section

variable (limits : Limits)

/-- The text of one bulk string. A negative length stands for empty data and has
no payload. -/
inductive BulkString : Bytes → Bytes → Prop
  | data {head payload : Bytes} (hline : IntLine head payload.length)
      (hle : payload.length ≤ limits.maxBulkLen) :
      BulkString (dollar :: head ++ (payload ++ crlf)) payload
  | null {head : Bytes} {n : Int} (hline : IntLine head n) (hneg : n < 0) :
      BulkString (dollar :: head) []

inductive BulkStrings : Bytes → List Bytes → Prop
  | nil : BulkStrings [] []
  | cons {raw raws data : Bytes} {datas : List Bytes} (head : BulkString limits raw data)
      (tail : BulkStrings raws datas) : BulkStrings (raw ++ raws) (data :: datas)

/-- The text of one command. -/
inductive Command : Bytes → List Bytes → Prop
  | inline {line : Bytes} (hlf : lf ∉ line) (hstar : line.head? ≠ some star)
      (hle : (Parser.words line).length ≤ limits.maxArrayLen) :
      Command (line ++ [lf]) (Parser.words line)
  | array {head raws : Bytes} {args : List Bytes} (hline : IntLine head args.length)
      (hle : args.length ≤ limits.maxArrayLen) (hbulks : BulkStrings limits raws args) :
      Command (star :: head ++ raws) args

/-- A text that no bulk string starts with. -/
inductive BrokenBulk : Bytes → ProtocolError → Prop
  | notBulk {byte : UInt8} (h : byte ≠ dollar) : BrokenBulk [byte] .expectedBulkString
  | tooLong {head : Bytes} {n : Nat} (hline : IntLine head n) (hlt : limits.maxBulkLen < n) :
      BrokenBulk (dollar :: head) .bulkLength
  | terminator {head payload ending : Bytes} (hline : IntLine head payload.length)
      (hle : payload.length ≤ limits.maxBulkLen) (hlen : ending.length = 2) (hne : ending ≠ crlf) :
      BrokenBulk (dollar :: head ++ (payload ++ ending)) .bulkTerminator

/-- A text that no command starts with, with the error it is answered by. -/
inductive Broken : Bytes → ProtocolError → Prop
  | words {line : Bytes} (hlf : lf ∉ line) (hstar : line.head? ≠ some star)
      (hlt : limits.maxArrayLen < (Parser.words line).length) :
      Broken (line ++ [lf]) .argumentCount
  | count {head : Bytes} {n : Nat} (hline : IntLine head n) (hlt : limits.maxArrayLen < n) :
      Broken (star :: head) .arrayCount
  | bulk {head raws raw : Bytes} {n : Nat} {args : List Bytes} {error : ProtocolError}
      (hline : IntLine head n) (hle : n ≤ limits.maxArrayLen)
      (hbulks : BulkStrings limits raws args)
      (hlt : args.length < n) (hbroken : BrokenBulk limits raw error) :
      Broken (star :: head ++ (raws ++ raw)) error

end

/-- A text in which no complete number line can be read: the line is not
terminated, or it is and holds no number. -/
inductive UnfinishedLine : Bytes → Prop
  | cut {text : Bytes} (h : Parser.findCrlf text = none) : UnfinishedLine text
  | noNumber {text : Bytes} {k : Nat} (h : Parser.findCrlf text = some k)
      (hparse : parseI64Bytes (text.take k) = none) : UnfinishedLine text

section

variable (limits : Limits)

/-- A text the parser waits for the rest of, expecting a bulk string. -/
inductive UnfinishedBulk : Bytes → Prop
  | empty : UnfinishedBulk []
  | header {text : Bytes} (h : UnfinishedLine text) : UnfinishedBulk (dollar :: text)
  | payload {head rest : Bytes} {n : Nat} (hline : IntLine head n) (hle : n ≤ limits.maxBulkLen)
      (hshort : rest.length < n + 2) : UnfinishedBulk (dollar :: head ++ rest)

/-- A text the parser waits for the rest of, expecting a command. -/
inductive Unfinished : Bytes → Prop
  | line {line : Bytes} (hlf : lf ∉ line) (hstar : line.head? ≠ some star) : Unfinished line
  | header {text : Bytes} (h : UnfinishedLine text) : Unfinished (star :: text)
  | bulks {head raws rest : Bytes} {n : Nat} {args : List Bytes} (hline : IntLine head n)
      (hle : n ≤ limits.maxArrayLen) (hbulks : BulkStrings limits raws args)
      (hlt : args.length < n) (hrest : UnfinishedBulk limits rest) :
      Unfinished (star :: head ++ (raws ++ rest))

end

/-- An array header with a negative count. -/
def NegativeCount (raw : Bytes) : Prop :=
  ∃ head n, raw = star :: head ∧ IntLine head n ∧ n < 0

/-! ## Header lines -/

variable {value v : Int} {line : Bytes}

theorem checkedI64_eq_some :
    checkedI64 value = some v ↔ v = value ∧ -2 ^ 63 ≤ value ∧ value < 2 ^ 63 := by
  unfold checkedI64
  split
  · rename_i h
    rw [Option.some.injEq]
    exact ⟨fun hv => ⟨hv.symm, h⟩, fun hv => hv.1.symm⟩
  · rename_i h
    exact iff_of_false (by simp) fun hv => h hv.2

/-- One more digit. -/
theorem digitsLoop_cons {byte : UInt8} {rest : Bytes}
    (h : digitsLoop value (byte :: rest) = some v) :
    isAsciiDigit byte = true ∧
      ∃ next, next = value * 10 + (byte - zero).toNat ∧ next < 2 ^ 63 ∧
        digitsLoop next rest = some v := by
  unfold digitsLoop at h
  split at h
  · rename_i hdigit
    obtain ⟨scaled, hscaled, h⟩ := Option.bind_eq_some_iff.mp h
    obtain ⟨next, hnext, h⟩ := Option.bind_eq_some_iff.mp h
    obtain ⟨rfl, -, -⟩ := checkedI64_eq_some.mp hscaled
    obtain ⟨rfl, -, hlt⟩ := checkedI64_eq_some.mp hnext
    exact ⟨hdigit, _, rfl, hlt, h⟩
  · cases h

/-- Only digits are read, and the value grows with them. -/
theorem digitsLoop_spec {digits : Bytes} (hvalue : 0 ≤ value)
    (h : digitsLoop value digits = some v) (hlt : value < 2 ^ 63) :
    (∀ byte ∈ digits, isAsciiDigit byte = true) ∧ value ≤ v ∧ v < 2 ^ 63 := by
  induction digits generalizing value with
  | nil =>
    cases h
    exact ⟨by simp, le_rfl, hlt⟩
  | cons byte rest ih =>
    obtain ⟨hdigit, next, hnext, hbound, hrest⟩ := digitsLoop_cons h
    obtain ⟨hall, hle, hv⟩ := ih (by omega) hrest hbound
    refine ⟨?_, by omega, hv⟩
    intro b hb
    rcases mem_cons.mp hb with rfl | hb
    · exact hdigit
    · exact hall b hb

theorem parseI64Bytes_eq_some {n : Int} (h : parseI64Bytes line = some n) :
    ∃ negative digits v, signAndDigits line = (negative, digits) ∧ digits ≠ [] ∧
      digitsLoop 0 digits = some v ∧ n = if negative then -v else v := by
  unfold parseI64Bytes at h
  cases hsign : signAndDigits line with
  | mk negative digits =>
    cases digits with
    | nil => simp [hsign] at h
    | cons d ds =>
      simp only [hsign] at h
      obtain ⟨v, hv, h⟩ := Option.bind_eq_some_iff.mp h
      refine ⟨negative, d :: ds, v, rfl, by simp, hv, ?_⟩
      cases negative with
      | false => simpa using h.symm
      | true => simpa using (checkedI64_eq_some.mp (by simpa using h)).1

/-- At most one sign stands in front of the digits. -/
theorem signAndDigits_cases (line : Bytes) :
    line = (signAndDigits line).2 ∨
      ∃ sign, (sign = minus ∨ sign = plus) ∧ line = sign :: (signAndDigits line).2 := by
  cases line with
  | nil => exact .inl rfl
  | cons byte rest =>
    by_cases hminus : byte = minus
    · exact .inr ⟨byte, .inl hminus, by simp [signAndDigits, hminus]⟩
    · by_cases hplus : byte = plus
      · exact .inr ⟨byte, .inr hplus, by simp [signAndDigits, hplus, plus, minus]⟩
      · exact .inl (by simp [signAndDigits, hminus, hplus])

/-- A number is written without `\r`. -/
theorem cr_not_mem_of_parse {n : Int} (h : parseI64Bytes line = some n) : cr ∉ line := by
  obtain ⟨negative, digits, v, hsign, -, hv, -⟩ := parseI64Bytes_eq_some h
  have hdigits : cr ∉ digits := by
    intro hmem
    exact absurd ((digitsLoop_spec le_rfl hv (by decide)).1 cr hmem) (by decide)
  intro hmem
  obtain hline | ⟨sign, hcase, hline⟩ := signAndDigits_cases line
  · rw [hline, hsign] at hmem
    exact hdigits hmem
  · rw [hline, hsign] at hmem
    rcases mem_cons.mp hmem with hcr | hcr
    · rcases hcase with rfl | rfl <;> exact absurd hcr (by decide)
    · exact hdigits hcr

/-- A header line cannot announce more than an `i64` holds. -/
theorem parseI64Bytes_lt {n : Int} (h : parseI64Bytes line = some n) : n < 2 ^ 63 := by
  obtain ⟨negative, digits, v, -, -, hv, rfl⟩ := parseI64Bytes_eq_some h
  obtain ⟨-, hle, hlt⟩ := digitsLoop_spec le_rfl hv (by decide)
  cases negative with
  | false => simpa using hlt
  | true => simp only [if_true]; omega

namespace Parser

theorem findCrlf_append {text : Bytes} (h : cr ∉ text) (more : Bytes) :
    findCrlf (text ++ crlf ++ more) = some text.length := by
  induction text with
  | nil => simp [findCrlf, crlf]
  | cons byte text ih =>
    have hbyte : byte ≠ cr := fun hb => h (by simp [hb])
    have htail := ih fun hmem => h (mem_cons_of_mem _ hmem)
    -- The scan looks at two bytes, so the text is split once more.
    cases text with
    | nil => simp [findCrlf, crlf, hbyte]
    | cons next text =>
      simp only [cons_append] at htail ⊢
      rw [findCrlf, if_neg fun hab => hbyte hab.1, htail]
      rfl

theorem findCrlf_some {bytes : Bytes} {k : Nat} (h : findCrlf bytes = some k) :
    bytes = bytes.take k ++ crlf ++ bytes.drop (k + 2) := by
  induction bytes using findCrlf.induct generalizing k with
  | case1 => simp [findCrlf] at h
  | case2 => simp [findCrlf] at h
  | case3 a b rest hab =>
    simp only [findCrlf, hab, and_self, if_true, Option.some.injEq] at h
    subst h
    simp [crlf, hab.1, hab.2]
  | case4 a b rest hab ih =>
    simp only [findCrlf, hab, if_false, Option.map_eq_some_iff] at h
    obtain ⟨j, hj, rfl⟩ := h
    exact congrArg (a :: ·) (ih hj)

@[simp] theorem rest_advance (p : Parser) (n : Nat) : (p.advance n).rest = p.rest.drop n := by
  simp [rest, advance]

@[simp] theorem advance_toLimits (p : Parser) (n : Nat) : (p.advance n).toLimits = p.toLimits := rfl

@[simp] theorem advance_buf (p : Parser) (n : Nat) : (p.advance n).buf = p.buf := rfl

@[simp] theorem advance_pos (p : Parser) (n : Nat) : (p.advance n).pos = p.pos + n := rfl

@[simp] theorem rest_withLimits (limits : Limits) (buf : Bytes) :
    (withLimits limits buf).rest = buf := rfl

theorem advance_advance (p : Parser) (n m : Nat) : (p.advance n).advance m = p.advance (n + m) := by
  simp [advance, Nat.add_assoc]

variable {p : Parser} {raw more : Bytes}

theorem rest_advance_of_eq (h : p.rest = raw ++ more) : (p.advance raw.length).rest = more := by
  rw [rest_advance, h, drop_left]

/-- The cursor of a parser with bytes in front of it lies inside the buffer. -/
theorem pos_add_length (h : p.rest = raw ++ more) (hne : raw ≠ []) :
    p.pos + (raw.length + more.length) = p.buf.length := by
  have hlen : p.rest.length = p.buf.length - p.pos := length_drop
  have hraw := length_pos_iff.mpr hne
  rw [h, length_append] at hlen
  omega

variable {payload ending : Bytes} {n : Int}

/-- A complete header line is consumed whatever follows. -/
theorem readLineInt_of_line (h : IntLine raw n) (hrest : p.rest = raw ++ more) :
    p.readLineInt = (some n, p.advance raw.length) := by
  obtain ⟨text, rfl, hparse⟩ := h
  unfold readLineInt
  rw [hrest, findCrlf_append (cr_not_mem_of_parse hparse)]
  simp [hparse, crlf]

/-- A header line is a number, or it is not complete or not a number. -/
theorem readLineInt_cases (p : Parser) :
    (∃ head n more, IntLine head n ∧ p.rest = head ++ more) ∨
      UnfinishedLine p.rest ∧
        ∃ q, p.readLineInt = (none, q) ∧ q.buf = p.buf ∧ q.toLimits = p.toLimits := by
  cases hfind : findCrlf p.rest with
  | none => exact .inr ⟨.cut hfind, p, by rw [readLineInt, hfind], rfl, rfl⟩
  | some k =>
    cases hparse : parseI64Bytes (p.rest.take k) with
    | none =>
      refine .inr ⟨.noNumber hfind hparse, p.advance (k + 2), ?_, rfl, rfl⟩
      rw [readLineInt, hfind]
      simp only [hparse]
    | some n => exact .inl ⟨_, n, _, ⟨_, rfl, hparse⟩, findCrlf_some hfind⟩

/-! ## Bulk strings -/

/-- The parser reads a buffer that fits in memory. -/
def InMemory (p : Parser) : Prop := p.buf.length < isizeMax

theorem InMemory.advance (h : p.InMemory) (n : Nat) : (p.advance n).InMemory := h

/-- In memory the end of every text is a machine word. -/
theorem InMemory.end_le (hmem : p.InMemory) (h : p.rest = raw ++ more) (hne : raw ≠ []) :
    p.pos + raw.length ≤ usizeMax := by
  have hlen := pos_add_length h hne
  unfold InMemory isizeMax at hmem
  unfold usizeMax
  omega

/-- A payload with both bytes behind it is decided whatever follows. -/
theorem bulkPayload_of_text (hrest : p.rest = payload ++ (ending ++ more))
    (hle : payload.length ≤ p.maxBulkLen) (hending : ending.length = 2)
    (hword : p.pos + payload.length + 2 ≤ usizeMax) :
    p.bulkPayload payload.length =
      if ending = crlf then (.ok (some payload), p.advance (payload.length + 2))
      else (.error .bulkTerminator, p) := by
  have hroom : ¬ p.buf.length < p.pos + payload.length + 2 := by
    have hlength : p.rest.length = p.buf.length - p.pos := length_drop
    rw [hrest, length_append, length_append] at hlength
    omega
  rw [bulkPayload, if_neg (not_lt.mpr hle), if_neg (not_lt.mpr hword), if_neg hroom,
    hrest, drop_left, take_left, ← hending, take_left, ite_not]

theorem bulkPayload_tooLong {len : Nat} (h : p.maxBulkLen < len) :
    p.bulkPayload len = (.error .bulkLength, p) := by
  rw [bulkPayload, if_pos h]

/-- The outcomes of reading a payload. -/
theorem bulkPayload_cases (p : Parser) (len : Nat) :
    (p.maxBulkLen < len ∧ p.bulkPayload len = (.error .bulkLength, p)) ∨
    (usizeMax < p.pos + len + 2 ∧ p.bulkPayload len = (.error .bulkLength, p)) ∨
    (len ≤ p.maxBulkLen ∧ p.rest.length < len + 2 ∧ p.bulkPayload len = (.ok none, p)) ∨
    (len ≤ p.maxBulkLen ∧ ∃ payload ending more, p.rest = payload ++ (ending ++ more) ∧
      payload.length = len ∧ ending.length = 2 ∧ p.pos + len + 2 ≤ usizeMax) := by
  have hrest : p.rest.length = p.buf.length - p.pos := length_drop
  by_cases hmax : p.maxBulkLen < len
  · exact .inl ⟨hmax, bulkPayload_tooLong hmax⟩
  by_cases hword : usizeMax < p.pos + len + 2
  · exact .inr (.inl ⟨hword, by rw [bulkPayload, if_neg hmax, if_pos hword]⟩)
  by_cases hshort : p.buf.length < p.pos + len + 2
  · refine .inr (.inr (.inl ⟨not_lt.mp hmax, by omega, ?_⟩))
    rw [bulkPayload, if_neg hmax, if_neg hword, if_pos hshort]
  refine .inr (.inr (.inr ⟨not_lt.mp hmax, p.rest.take len, (p.rest.drop len).take 2,
    (p.rest.drop len).drop 2, ?_, ?_, ?_, not_lt.mp hword⟩))
  · rw [take_append_drop, take_append_drop]
  · rw [length_take]; omega
  · rw [length_take, length_drop]; omega

variable {head : Bytes}

/-- A length line after the `$`. -/
theorem parseBulkString_of_line (hline : IntLine head n)
    (hrest : p.rest = dollar :: (head ++ more)) :
    p.parseBulkString =
      if n < 0 then (.ok (some []), p.advance (dollar :: head).length)
      else (p.advance (dollar :: head).length).bulkPayload n.toNat := by
  have hnext : (p.advance 1).rest = head ++ more := @rest_advance_of_eq p [dollar] _ hrest
  have hadvance : (p.advance 1).advance head.length = p.advance (dollar :: head).length := by
    rw [advance_advance, length_cons, Nat.add_comm]
  rw [parseBulkString, hrest]
  rw [readLineInt_of_line hline hnext]
  simp [hadvance]

/-- A length line and a payload with two bytes behind it. -/
theorem parseBulkString_of_payload (hline : IntLine head payload.length)
    (hle : payload.length ≤ p.maxBulkLen) (hending : ending.length = 2)
    (hrest : p.rest = dollar :: head ++ (payload ++ ending) ++ more)
    (hword : p.pos + (dollar :: head ++ (payload ++ ending)).length ≤ usizeMax) :
    p.parseBulkString =
      if ending = crlf then
        (.ok (some payload), p.advance (dollar :: head ++ (payload ++ ending)).length)
      else (.error .bulkTerminator, p.advance (dollar :: head).length) := by
  have hhead : p.rest = (dollar :: head) ++ (payload ++ (ending ++ more)) := by
    rw [hrest, append_assoc, append_assoc]
  rw [length_append, length_append] at hword
  rw [parseBulkString_of_line hline hhead, if_neg (by omega), Int.toNat_natCast,
    bulkPayload_of_text (rest_advance_of_eq hhead) hle hending (by rw [advance_pos]; omega),
    advance_advance, length_append, length_append, hending]

/-- A complete bulk string is consumed whatever follows. -/
theorem parseBulkString_of_text {data : Bytes} (h : BulkString p.toLimits raw data)
    (hrest : p.rest = raw ++ more) (hword : p.pos + raw.length ≤ usizeMax) :
    p.parseBulkString = (.ok (some data), p.advance raw.length) := by
  cases h with
  | null hline hneg => rw [parseBulkString_of_line hline hrest, if_pos hneg]
  | data hline hle => rw [parseBulkString_of_payload hline hle rfl hrest hword, if_pos rfl]

/-- A broken bulk string is refused whatever follows. -/
theorem parseBulkString_of_broken {error : ProtocolError} (h : BrokenBulk p.toLimits raw error)
    (hrest : p.rest = raw ++ more) (hword : p.pos + raw.length ≤ usizeMax) :
    ∃ q, p.parseBulkString = (.error error, q) := by
  cases h with
  | notBulk hne =>
    rw [parseBulkString, hrest]
    simp [hne]
  | @tooLong head n hline hlt =>
    refine ⟨p.advance (dollar :: head).length, ?_⟩
    rw [parseBulkString_of_line hline hrest, Int.toNat_natCast]
    exact bulkPayload_tooLong hlt
  | terminator hline hle hlen hne =>
    rw [parseBulkString_of_payload hline hle hlen hrest hword, if_neg hne]
    exact ⟨_, rfl⟩

/-- What a bulk string can start with, in the words of the grammar. Outside memory
the end of a payload can exceed a machine word. -/
theorem parseBulkString_cases (p : Parser) :
    (∃ raw data more, p.rest = raw ++ more ∧ BulkString p.toLimits raw data ∧
      p.parseBulkString = (.ok (some data), p.advance raw.length)) ∨
    (∃ raw error more q, p.rest = raw ++ more ∧ BrokenBulk p.toLimits raw error ∧
      p.parseBulkString = (.error error, q)) ∨
    (UnfinishedBulk p.toLimits p.rest ∧
      ∃ q, p.parseBulkString = (.ok none, q) ∧ q.buf = p.buf ∧ q.toLimits = p.toLimits) ∨
    (¬ p.InMemory ∧ ∃ error q, p.parseBulkString = (.error error, q)) := by
  cases hrest : p.rest with
  | nil =>
    refine .inr (.inr (.inl ⟨.empty, p, ?_, rfl, rfl⟩))
    rw [parseBulkString, hrest]
  | cons byte tail =>
    by_cases hbyte : byte = dollar
    swap
    · refine .inr (.inl ⟨[byte], _, tail, p, rfl, .notBulk hbyte, ?_⟩)
      rw [parseBulkString, hrest]
      simp [hbyte]
    subst hbyte
    have hnext : (p.advance 1).rest = tail := @rest_advance_of_eq p [dollar] tail hrest
    rcases readLineInt_cases (p.advance 1) with ⟨head, n, more, hint, hsplit⟩ |
      ⟨hunfinished, q, hline, hbuf, hlimits⟩
    swap
    · rw [hnext] at hunfinished
      refine .inr (.inr (.inl ⟨.header hunfinished, q, ?_, hbuf, hlimits⟩))
      rw [parseBulkString, hrest]
      simp [hline]
    rw [hnext] at hsplit
    subst hsplit
    have hhead : p.rest = (dollar :: head) ++ more := hrest
    have hafter := rest_advance_of_eq hhead
    by_cases hneg : n < 0
    · refine .inl ⟨dollar :: head, [], more, rfl, .null hint hneg, ?_⟩
      rw [parseBulkString_of_line hint hhead, if_pos hneg]
    obtain ⟨len, rfl⟩ : ∃ len : Nat, n = len := ⟨n.toNat, by omega⟩
    have hanswer : p.parseBulkString = (p.advance (dollar :: head).length).bulkPayload len := by
      rw [parseBulkString_of_line hint hhead, if_neg hneg, Int.toNat_natCast]
    rcases bulkPayload_cases (p.advance (dollar :: head).length) len with
      ⟨hmax, hpayload⟩ | ⟨hword, hpayload⟩ | ⟨hmax, hshort, hpayload⟩ |
      ⟨hmax, payload, ending, after, heq, rfl, hending, hword⟩
    · exact .inr (.inl ⟨dollar :: head, _, more, _, rfl, .tooLong hint hmax,
        hanswer.trans hpayload⟩)
    · refine .inr (.inr (.inr ⟨?_, _, _, hanswer.trans hpayload⟩))
      obtain ⟨text, -, hparse⟩ := hint
      have hlt := parseI64Bytes_lt hparse
      have hlen := pos_add_length hhead (by simp)
      rw [advance_pos] at hword
      unfold usizeMax at hword
      unfold InMemory isizeMax
      omega
    · rw [hafter] at hshort
      exact .inr (.inr (.inl ⟨.payload hint hmax hshort, _, hanswer.trans hpayload, rfl, rfl⟩))
    · rw [hafter] at heq
      subst heq
      have hsplit : p.rest = dollar :: head ++ (payload ++ ending) ++ after := by
        rw [hhead, append_assoc, append_assoc]
      have hresult := parseBulkString_of_payload (p := p) hint hmax hending hsplit (by
        rw [length_append, length_append]
        rw [advance_pos] at hword
        omega)
      by_cases hcrlf : ending = crlf
      · subst hcrlf
        exact .inl ⟨_, payload, after, by simp, .data hint hmax, hresult⟩
      · rw [if_neg hcrlf] at hresult
        exact .inr (.inl ⟨_, _, after, _, by simp, .terminator hint hmax hending hcrlf,
          hresult⟩)

/-! ## Arrays -/

/-- Complete bulk strings are consumed one after the other. -/
theorem bulkLoop_of_text {raws : Bytes} {datas : List Bytes} (h : BulkStrings p.toLimits raws datas)
    (hrest : p.rest = raws ++ more) (hword : p.pos + raws.length ≤ usizeMax) (saved n : Nat)
    (args : List Bytes) :
    bulkLoop saved (datas.length + n) args p =
      bulkLoop saved n (args ++ datas) (p.advance raws.length) := by
  generalize hlimits : p.toLimits = limits at h
  induction h generalizing p args with
  | nil => simp [advance]
  | @cons raw raws data datas head tail ih =>
    rw [append_assoc] at hrest
    rw [length_append] at hword
    have hone := parseBulkString_of_text (hlimits ▸ head) hrest (by omega)
    rw [length_cons, Nat.add_right_comm, bulkLoop, hone]
    simp only
    rw [ih (rest_advance_of_eq hrest) (by rw [advance_pos]; omega) _ hlimits, advance_advance,
      length_append, append_assoc]
    rfl

/-- How far the loop over the bulk strings gets. -/
theorem bulkLoop_cases (p : Parser) (n : Nat) :
    ∃ raws datas more, p.rest = raws ++ more ∧ BulkStrings p.toLimits raws datas ∧
      ((datas.length = n ∧ ∀ saved args,
          bulkLoop saved n args p = (.ok (some (args ++ datas)), p.advance raws.length)) ∨
        (datas.length < n ∧ ∃ raw error after q, more = raw ++ after ∧
          BrokenBulk p.toLimits raw error ∧
            ∀ saved args, bulkLoop saved n args p = (.error error, q)) ∨
        (datas.length < n ∧ UnfinishedBulk p.toLimits more ∧
          ∀ saved args, bulkLoop saved n args p = (.ok none, { p with pos := saved })) ∨
        (¬ p.InMemory ∧ ∃ error q, ∀ saved args, bulkLoop saved n args p = (.error error, q))) := by
  induction n generalizing p with
  | zero =>
    refine ⟨[], [], p.rest, rfl, .nil, .inl ⟨rfl, fun saved args => ?_⟩⟩
    simp [bulkLoop, advance]
  | succ n ih =>
    rcases parseBulkString_cases p with ⟨raw, data, more, hrest, htext, hone⟩ |
      ⟨raw, error, more, q, hrest, hbroken, hone⟩ | ⟨hunfinished, q, hone, hbuf, hlimits⟩ |
      ⟨hmem, error, q, hone⟩
    · have hloop : ∀ saved args, bulkLoop saved (n + 1) args p =
          bulkLoop saved n (args ++ [data]) (p.advance raw.length) := by
        intro saved args
        rw [bulkLoop, hone]
      obtain ⟨raws, datas, more', hmore, hbulks, hends⟩ := ih (p.advance raw.length)
      rw [rest_advance_of_eq hrest] at hmore
      subst hmore
      refine ⟨raw ++ raws, data :: datas, more', by rw [hrest, append_assoc],
        .cons htext hbulks, ?_⟩
      rcases hends with ⟨hlen, hrun⟩ | ⟨hlen, raw', error, after, q, hafter, hbroken, hrun⟩ |
        ⟨hlen, hunfinished, hrun⟩ | ⟨hmem, error, q, hrun⟩
      · refine .inl ⟨by rw [length_cons, hlen], fun saved args => ?_⟩
        rw [hloop, hrun, advance_advance, length_append, append_assoc]
        rfl
      · exact .inr (.inl ⟨Nat.succ_lt_succ hlen, raw', error, after, q, hafter, hbroken,
          fun saved args => by rw [hloop, hrun]⟩)
      · exact .inr (.inr (.inl ⟨Nat.succ_lt_succ hlen, hunfinished,
          fun saved args => (hloop saved args).trans (hrun saved _)⟩))
      · exact .inr (.inr (.inr ⟨hmem, error, q, fun saved args => by rw [hloop, hrun]⟩))
    · exact ⟨[], [], p.rest, rfl, .nil, .inr (.inl ⟨Nat.succ_pos n, raw, error, more, q, hrest,
        hbroken, fun saved args => by rw [bulkLoop, hone]⟩)⟩
    · refine ⟨[], [], p.rest, rfl, .nil, .inr (.inr (.inl ⟨Nat.succ_pos n, hunfinished,
        fun saved args => ?_⟩))⟩
      rw [bulkLoop, hone]
      simp only [hbuf, hlimits]
    · exact ⟨[], [], p.rest, rfl, .nil, .inr (.inr (.inr ⟨hmem, error, q,
        fun saved args => by rw [bulkLoop, hone]⟩))⟩

/-- An array header line. -/
theorem parseMultibulkArgs_of_line (hline : IntLine head n)
    (hrest : p.rest = star :: (head ++ more)) :
    p.parseCommandArgs =
      if n < 0 then (.ok none, p.advance (star :: head).length)
      else if (p.maxArrayLen : Int) < n then (.error .arrayCount, p.advance (star :: head).length)
      else bulkLoop p.pos n.toNat [] (p.advance (star :: head).length) := by
  have hnext : (p.advance 1).rest = head ++ more := @rest_advance_of_eq p [star] _ hrest
  have hadvance : (p.advance 1).advance head.length = p.advance (star :: head).length := by
    rw [advance_advance, length_cons, Nat.add_comm]
  rw [parseCommandArgs, hrest]
  rw [parseMultibulkArgs, readLineInt_of_line hline hnext]
  simp only [hadvance]
  rfl

/-! ## Commands -/

theorem parseCommandArgs_inline (h : p.rest.head? ≠ some star) :
    p.parseCommandArgs = p.parseInlineArgs := by
  rw [parseCommandArgs]
  cases hrest : p.rest with
  | nil => simp [parseInlineArgs, hrest]
  | cons byte tail =>
    have hbyte : byte ≠ star := fun hb => h (by rw [hrest, hb]; rfl)
    simp [hbyte]

/-- An inline line is consumed whatever follows. -/
theorem parseCommandArgs_of_line {line : Bytes} (hlf : lf ∉ line) (hstar : line.head? ≠ some star)
    (hrest : p.rest = line ++ [lf] ++ more) :
    p.parseCommandArgs =
      if p.maxArrayLen < (words line).length then
        (.error .argumentCount, p.advance (line ++ [lf]).length)
      else (.ok (some (words line)), p.advance (line ++ [lf]).length) := by
  have hsplit : p.rest = line ++ (lf :: more) := by rw [hrest, append_assoc]; rfl
  have hidx : p.rest.idxOf? lf = some line.length := by
    have hnone : line.findIdx? (· == lf) = none := idxOf?_eq_none_iff.mpr hlf
    rw [hsplit, idxOf?, findIdx?_append, hnone, findIdx?_cons]
    simp
  have hhead : p.rest.head? ≠ some star := by
    rw [hsplit]
    cases line with
    | nil => exact fun h => absurd (Option.some.inj h) (by decide)
    | cons byte line => exact hstar
  rw [parseCommandArgs_inline hhead, parseInlineArgs, hidx]
  simp only [hsplit, take_left, length_append]
  rfl

/-- The arguments of an array are consumed as far as they are complete. -/
theorem parseCommandArgs_of_array {raws : Bytes} {args : List Bytes} {m : Nat}
    (hline : IntLine head ↑(args.length + m)) (hle : args.length + m ≤ p.maxArrayLen)
    (hbulks : BulkStrings p.toLimits raws args) (hrest : p.rest = star :: head ++ raws ++ more)
    (hword : p.pos + (star :: head ++ raws).length ≤ usizeMax) :
    p.parseCommandArgs = bulkLoop p.pos m args (p.advance (star :: head ++ raws).length) := by
  rw [append_assoc] at hrest
  rw [length_append] at hword
  have hloop := bulkLoop_of_text (p := p.advance _) hbulks (rest_advance_of_eq hrest)
    (by rw [advance_pos]; omega) p.pos m []
  rw [parseMultibulkArgs_of_line hline hrest, if_neg (by omega), if_neg (by omega),
    Int.toNat_natCast, hloop, advance_advance, length_append, nil_append]

/-- A complete command is consumed whatever follows. -/
theorem parseCommandArgs_of_command (hmem : p.InMemory) {args : List Bytes}
    (h : Command p.toLimits raw args) (hrest : p.rest = raw ++ more) :
    p.parseCommandArgs = (.ok (some args), p.advance raw.length) := by
  have hend := hmem.end_le hrest
  cases h with
  | inline hlf hstar hle => rw [parseCommandArgs_of_line hlf hstar hrest, if_neg (not_lt.mpr hle)]
  | array hline hle hbulks =>
    rw [parseCommandArgs_of_array (m := 0) hline hle hbulks hrest (hend (by simp)), bulkLoop]

/-- A broken command is refused whatever follows. -/
theorem parseCommandArgs_of_broken (hmem : p.InMemory) {error : ProtocolError}
    (h : Broken p.toLimits raw error) (hrest : p.rest = raw ++ more) :
    ∃ q, p.parseCommandArgs = (.error error, q) := by
  have hend := hmem.end_le hrest
  cases h with
  | words hlf hstar hlt =>
    rw [parseCommandArgs_of_line hlf hstar hrest, if_pos hlt]
    exact ⟨_, rfl⟩
  | count hline hlt =>
    rw [parseMultibulkArgs_of_line hline hrest, if_neg (by omega), if_pos (by omega)]
    exact ⟨_, rfl⟩
  | @bulk head raws raw n args error hline hle hbulks hlt hbroken =>
    have hword := hend (by simp)
    rw [← append_assoc, length_append] at hword
    have hsplit : p.rest = star :: head ++ raws ++ (raw ++ more) := by simp [hrest]
    obtain ⟨m, rfl⟩ : ∃ m, n = args.length + (m + 1) := ⟨n - args.length - 1, by omega⟩
    obtain ⟨q, hq⟩ := parseBulkString_of_broken (p := p.advance (star :: head ++ raws).length)
      hbroken (rest_advance_of_eq hsplit) (by rw [advance_pos]; omega)
    rw [parseCommandArgs_of_array hline hle hbulks hsplit (by omega), bulkLoop, hq]
    exact ⟨q, rfl⟩

/-- A negative count is answered like missing data, but it is consumed. -/
theorem parseCommandArgs_of_negative (h : NegativeCount raw) (hrest : p.rest = raw ++ more) :
    p.parseCommandArgs = (.ok none, p.advance raw.length) := by
  obtain ⟨head, n, rfl, hline, hneg⟩ := h
  rw [parseMultibulkArgs_of_line hline hrest, if_pos hneg]

/-- What the buffer can start with, in the words of the grammar. -/
theorem parseCommandArgs_cases (p : Parser) :
    (∃ raw args more, p.rest = raw ++ more ∧ Command p.toLimits raw args ∧
      p.parseCommandArgs = (.ok (some args), p.advance raw.length)) ∨
    (∃ raw error more q, p.rest = raw ++ more ∧ Broken p.toLimits raw error ∧
      p.parseCommandArgs = (.error error, q)) ∨
    (∃ raw more, p.rest = raw ++ more ∧ NegativeCount raw ∧
      p.parseCommandArgs = (.ok none, p.advance raw.length)) ∨
    (Unfinished p.toLimits p.rest ∧ p.parseCommandArgs = (.ok none, p)) ∨
    (¬ p.InMemory ∧ ∃ error q, p.parseCommandArgs = (.error error, q)) := by
  by_cases hstar : p.rest.head? = some star
  · obtain ⟨tail, hrest⟩ := head?_eq_some_iff.mp hstar
    have hnext : (p.advance 1).rest = tail := @rest_advance_of_eq p [star] tail hrest
    rcases readLineInt_cases (p.advance 1) with ⟨head, n, more, hline, hsplit⟩ |
      ⟨hunfinished, q, hread, hbuf, hlimits⟩
    swap
    · rw [hnext] at hunfinished
      refine .inr (.inr (.inr (.inl ⟨hrest ▸ .header hunfinished, ?_⟩)))
      rw [parseCommandArgs, hrest]
      simp only [if_true]
      rw [parseMultibulkArgs, hread]
      simp only [hbuf, hlimits, advance_buf, advance_toLimits]
    rw [hnext] at hsplit
    subst hsplit
    have hhead : p.rest = (star :: head) ++ more := hrest
    by_cases hneg : n < 0
    · have hnegative : NegativeCount (star :: head) := ⟨head, n, rfl, hline, hneg⟩
      exact .inr (.inr (.inl ⟨star :: head, more, hhead, hnegative,
        parseCommandArgs_of_negative hnegative hhead⟩))
    obtain ⟨count, rfl⟩ : ∃ count : Nat, n = count := ⟨n.toNat, by omega⟩
    by_cases hmax : p.maxArrayLen < count
    · refine .inr (.inl ⟨star :: head, _, more, p.advance (star :: head).length, hhead,
        .count hline hmax, ?_⟩)
      rw [parseMultibulkArgs_of_line hline hhead, if_neg hneg, if_pos (by omega)]
    have hanswer : p.parseCommandArgs =
        bulkLoop p.pos count [] (p.advance (star :: head).length) := by
      rw [parseMultibulkArgs_of_line hline hhead, if_neg hneg, if_neg (by omega),
        Int.toNat_natCast]
    obtain ⟨raws, datas, more', hmore, hbulks, hends⟩ :=
      bulkLoop_cases (p.advance (star :: head).length) count
    rw [rest_advance_of_eq hhead] at hmore
    subst hmore
    rcases hends with ⟨hlen, hloop⟩ | ⟨hlen, raw, error, after, q, hafter, hbroken, hloop⟩ |
      ⟨hlen, hunfinished, hloop⟩ | ⟨hmem, error, q, hloop⟩
    · subst hlen
      refine .inl ⟨_, datas, more', by rw [hhead, append_assoc],
        .array hline (not_lt.mp hmax) hbulks, ?_⟩
      rw [hanswer, hloop, advance_advance, length_append]
      rfl
    · subst hafter
      refine .inr (.inl ⟨_, error, after, q,
        by rw [hhead, append_assoc, append_assoc],
        .bulk hline (not_lt.mp hmax) hbulks hlen hbroken, ?_⟩)
      rw [hanswer, hloop]
    · refine .inr (.inr (.inr (.inl ⟨?_, ?_⟩)))
      · rw [hhead]
        exact .bulks hline (not_lt.mp hmax) hbulks hlen hunfinished
      · rw [hanswer, hloop]
        rfl
    · exact .inr (.inr (.inr (.inr ⟨hmem, error, q, by rw [hanswer, hloop]⟩)))
  by_cases hlf : lf ∈ p.rest
  · obtain ⟨line, more, hrest, hline⟩ := eq_append_cons_of_mem hlf
    have hhead : line.head? ≠ some star := by
      cases line with
      | nil => simp
      | cons b line => rwa [hrest] at hstar
    have hsplit : p.rest = line ++ [lf] ++ more := by rw [hrest, append_assoc]; rfl
    have hanswer := parseCommandArgs_of_line hline hhead hsplit
    by_cases hmax : p.maxArrayLen < (words line).length
    · rw [if_pos hmax] at hanswer
      exact .inr (.inl ⟨_, _, more, _, hsplit, .words hline hhead hmax, hanswer⟩)
    · rw [if_neg hmax] at hanswer
      exact .inl ⟨_, _, more, hsplit, .inline hline hhead (not_lt.mp hmax), hanswer⟩
  · refine .inr (.inr (.inr (.inl ⟨.line hlf hstar, ?_⟩)))
    rw [parseCommandArgs_inline hstar, parseInlineArgs, idxOf?_eq_none_iff.mpr hlf]

end Parser

end Lux.Resp
