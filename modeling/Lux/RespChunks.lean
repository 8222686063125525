import Lux.ChunkedParse
import Lux.RespGrammar

/-!
# The parser on a stream of reads

Every read is appended to the pending bytes, the parser runs over them until it
asks for more data, and what it has consumed is dropped. The loop instantiates the
library of chunked parsers: the kind of text in front of the cursor fixes each
answer, so answers survive the arrival of more bytes. What a connection refuses
besides (requests over its maximum, too many commands in one read, a buffer over
its budget) and that it passes over empty commands is not part of the loop.

One kind of text spoils the picture. An array header with a negative count is
answered like missing data although the cursor has moved past it: the rest of the
buffer is left alone until the next read, and only a cut behind the header lets
the parser reach the commands that follow. `cutsDoNotMatter_iff` says that this is
the only way for the cuts to matter.
-/

namespace Lux.Resp

open ByteCodec ChunkedParse List

/-- The commands read so far and the bytes still pending, or the error that ended
the reading. -/
abbrev Reading := Session (List Bytes) UInt8 ProtocolError

namespace Parser

/-- The loop over one buffer. The bytes before the cursor are dropped at the end;
the flag records that a request for more data left the cursor alone. -/
def readLoop : Nat → Parser → Reading
  | 0, p => ⟨[], .ok p.rest, true⟩
  | fuel + 1, p =>
    match p.parseCommandArgs with
    | (.ok (some args), q) => Session.after ⟨[args], .ok [], true⟩ (readLoop fuel q)
    | (.ok none, q) => ⟨[], .ok q.rest, q.pos == p.pos⟩
    | (.error error, _) => ⟨[], .error error, true⟩

end Parser

/-- One read from the socket. Every command takes a byte, so the loop ends before
its fuel does. -/
def receive (limits : Limits) (reading : Reading) (chunk : Bytes) : Reading :=
  match reading.pending with
  | .error _ => reading
  | .ok pending =>
    let buf := pending ++ chunk
    reading.after (Parser.readLoop (buf.length + 1) (.withLimits limits buf))

/-- All reads, one after the other. -/
def receiveAll (limits : Limits) (chunks : List Bytes) : Reading :=
  chunks.foldl (receive limits) ⟨[], .ok [], true⟩

/-- The outcome a client can tell: the commands and the first protocol error. -/
def Reading.outcome (reading : Reading) : List (List Bytes) × Option ProtocolError :=
  (reading.items, match reading.pending with | .ok _ => none | .error error => some error)

/-! ## Answers and texts -/

/-- One call of the parser, with the distance the cursor moved. -/
def Parser.answer (p : Parser) : Answer (List Bytes) ProtocolError :=
  match p.parseCommandArgs with
  | (.ok (some args), q) => .item args (q.pos - p.pos)
  | (.ok none, q) => .needMore (q.pos - p.pos)
  | (.error error, _) => .fail error

def front (limits : Limits) (buf : Bytes) : Answer (List Bytes) ProtocolError :=
  (Parser.withLimits limits buf).answer

/-- The buffer starts with a text that decides the answer. -/
inductive Decides (limits : Limits) (buf : Bytes) : Answer (List Bytes) ProtocolError → Prop
  | command {raw more : Bytes} {args : List Bytes} (hbuf : buf = raw ++ more)
      (h : Command limits raw args) : Decides limits buf (.item args raw.length)
  | broken {raw more : Bytes} {error : ProtocolError} (hbuf : buf = raw ++ more)
      (h : Broken limits raw error) : Decides limits buf (.fail error)
  | negative {raw more : Bytes} (hbuf : buf = raw ++ more) (h : NegativeCount raw) :
      Decides limits buf (.needMore raw.length)

/-- More bytes behind the text do not matter. -/
theorem Decides.append {limits : Limits} {buf : Bytes} {answer : Answer (List Bytes) ProtocolError}
    (h : Decides limits buf answer) (more : Bytes) : Decides limits (buf ++ more) answer := by
  cases h with
  | command hbuf h => exact .command (by rw [hbuf, append_assoc]) h
  | broken hbuf h => exact .broken (by rw [hbuf, append_assoc]) h
  | negative hbuf h => exact .negative (by rw [hbuf, append_assoc]) h

namespace Parser

variable {p : Parser}

theorem answer_of_decides (hmem : p.InMemory) {answer : Answer (List Bytes) ProtocolError}
    (h : Decides p.toLimits p.rest answer) : p.answer = answer := by
  rw [Parser.answer]
  cases h with
  | command hrest h =>
    rw [parseCommandArgs_of_command hmem h hrest]
    simp
  | broken hrest h =>
    obtain ⟨q, hq⟩ := parseCommandArgs_of_broken hmem h hrest
    rw [hq]
  | negative hrest h =>
    rw [parseCommandArgs_of_negative h hrest]
    simp

/-- An undecided buffer is a plain request for more data. -/
theorem decides_or_waits (hmem : p.InMemory) :
    Decides p.toLimits p.rest p.answer ∨ p.answer = .needMore 0 := by
  rcases parseCommandArgs_cases p with ⟨raw, args, more, hrest, h, -⟩ |
    ⟨raw, error, more, q, hrest, h, -⟩ | ⟨raw, more, hrest, h, -⟩ | ⟨-, hanswer⟩ | ⟨hlong, -⟩
  · have hdecides := Decides.command hrest h
    exact .inl (answer_of_decides hmem hdecides ▸ hdecides)
  · have hdecides := Decides.broken hrest h
    exact .inl (answer_of_decides hmem hdecides ▸ hdecides)
  · have hdecides : Decides p.toLimits p.rest _ := .negative hrest h
    exact .inl (answer_of_decides hmem hdecides ▸ hdecides)
  · rw [answer, hanswer]
    simp
  · exact absurd hmem hlong

/-- Where the text stands in the buffer does not matter. -/
theorem answer_congr {q : Parser} (hp : p.InMemory) (hq : q.InMemory)
    (hlimits : p.toLimits = q.toLimits) (hrest : p.rest = q.rest) : p.answer = q.answer := by
  rcases decides_or_waits hp with h | hwait
  · rw [hlimits, hrest] at h
    exact (answer_of_decides hq h).symm
  rcases decides_or_waits hq with h | hwait'
  · rw [← hlimits, ← hrest] at h
    exact answer_of_decides hp h
  · rw [hwait, hwait']

theorem answer_eq_front (hmem : p.InMemory) : p.answer = front p.toLimits p.rest := by
  have hle : p.rest.length ≤ p.buf.length := by
    rw [rest, length_drop]
    omega
  exact answer_congr hmem (q := withLimits p.toLimits p.rest) (lt_of_le_of_lt hle hmem) rfl rfl

/-- The loop over a buffer is the pass of the library. -/
theorem readLoop_eq_drainFuel (hmem : p.InMemory) (fuel : Nat) :
    readLoop fuel p = drainFuel (front p.toLimits) fuel p.rest := by
  induction fuel generalizing p with
  | zero => rfl
  | succ fuel ih =>
    rw [readLoop, drainFuel, ← answer_eq_front hmem]
    rcases parseCommandArgs_cases p with ⟨raw, args, more, -, -, hp⟩ |
      ⟨raw, error, more, q, -, -, hp⟩ | ⟨raw, more, -, -, hp⟩ | ⟨-, hp⟩ | ⟨hlong, -⟩
    · rw [answer, hp]
      simp only
      rw [ih (hmem.advance _), rest_advance, advance_toLimits, advance_pos, Nat.add_sub_cancel_left]
    · rw [answer, hp]
    · rw [answer, hp]
      simp
    · rw [answer, hp]
      simp
    · exact absurd hmem hlong

end Parser

section

variable {limits : Limits} {buf : Bytes}

theorem front_of_decides (hmem : buf.length < isizeMax)
    {answer : Answer (List Bytes) ProtocolError} (h : Decides limits buf answer) :
    front limits buf = answer :=
  Parser.answer_of_decides (p := .withLimits limits buf) hmem h

theorem decides_front (hmem : buf.length < isizeMax) (h : front limits buf ≠ .needMore 0) :
    Decides limits buf (front limits buf) :=
  (Parser.decides_or_waits (p := .withLimits limits buf) hmem).resolve_right h

/-- A decided answer stays when more bytes arrive. -/
theorem front_append {more : Bytes} (hmem : (buf ++ more).length < isizeMax)
    (h : front limits buf ≠ .needMore 0) : front limits (buf ++ more) = front limits buf := by
  have hbuf : buf.length < isizeMax := by rw [length_append] at hmem; omega
  exact front_of_decides hmem ((decides_front hbuf h).append more)

theorem Command.length_pos {raw : Bytes} {args : List Bytes} (h : Command limits raw args) :
    0 < raw.length := by
  cases h <;> simp

/-- **The answers of the parser are stable** for buffers in memory. -/
theorem stable_front (limits : Limits) : Stable (front limits) isizeMax where
  item more hmem h := by rw [front_append hmem (by simp [h]), h]
  fail more hmem h := by rw [front_append hmem (by simp [h]), h]
  moved more hmem h := by rw [front_append hmem (by simp [h]), h]
  size := by
    intro buf args n hmem h
    have hdecides : Decides limits buf (front limits buf) := decides_front hmem (by simp [h])
    rw [h] at hdecides
    cases hdecides with
    | command hbuf hcommand =>
      refine ⟨hcommand.length_pos, ?_⟩
      rw [hbuf, length_append]
      omega

/-- The reads are the arrivals of the library. -/
theorem receive_eq_feed {reading : Reading} {chunk : Bytes}
    (hmem : ∀ pending, reading.pending = .ok pending → (pending ++ chunk).length < isizeMax) :
    receive limits reading chunk = feed (front limits) reading chunk := by
  unfold receive feed
  cases hpending : reading.pending with
  | error error => rfl
  | ok pending =>
    simp only
    rw [Parser.readLoop_eq_drainFuel (p := .withLimits limits _) (hmem pending hpending)]
    rfl

theorem receiveAll_eq_feedAll {chunks : List Bytes} (hmem : chunks.flatten.length < isizeMax) :
    receiveAll limits chunks = feedAll (front limits) chunks := by
  induction chunks using reverseRecOn with
  | nil => rfl
  | append_singleton first last ih =>
    rw [flatten_append, flatten_singleton, length_append] at hmem
    rw [receiveAll, feedAll, foldl_append, foldl_append, ← receiveAll, ih (by omega)]
    refine receive_eq_feed ?_
    intro pending hpending
    have hle := feedAll_pending hpending
    rw [length_append]
    omega

end

/-! ## Streams -/

/-- Complete commands, and then a negative array count where the next command is
expected. -/
inductive ReachesNegative (limits : Limits) : Bytes → Prop
  | here {raw : Bytes} (more : Bytes) (h : NegativeCount raw) : ReachesNegative limits (raw ++ more)
  | later {raw more : Bytes} {args : List Bytes} (h : Command limits raw args)
      (hmore : ReachesNegative limits more) : ReachesNegative limits (raw ++ more)

section

variable {limits : Limits} {stream : Bytes}

/-- A negative count is reached after the first command or not at all. -/
theorem reachesNegative_item (hmem : stream.length < isizeMax) {args : List Bytes} {n : Nat}
    (hfront : front limits stream = .item args n) :
    ReachesNegative limits stream ↔ ReachesNegative limits (stream.drop n) := by
  constructor
  · intro h
    cases h with
    | here more h =>
      rw [front_of_decides hmem (.negative rfl h)] at hfront
      cases hfront
    | later h hmore =>
      rw [front_of_decides hmem (.command rfl h)] at hfront
      injection hfront with _ hn
      rwa [← hn, drop_left]
  · intro h
    have hdecides : Decides limits stream (front limits stream) :=
      decides_front hmem (by simp [hfront])
    rw [hfront] at hdecides
    cases hdecides with
    | command hstream hcommand =>
      subst hstream
      rw [drop_left] at h
      exact .later hcommand h

theorem reachesNegative_needMore (hmem : stream.length < isizeMax) {moved : Nat}
    (hfront : front limits stream = .needMore moved) :
    ReachesNegative limits stream ↔ moved ≠ 0 := by
  constructor
  · intro h
    cases h with
    | here more h =>
      rw [front_of_decides hmem (.negative rfl h)] at hfront
      injection hfront with hmoved
      obtain ⟨head, n, rfl, -⟩ := h
      rw [← hmoved]
      simp
    | later h hmore =>
      rw [front_of_decides hmem (.command rfl h)] at hfront
      cases hfront
  · intro h
    have hdecides : Decides limits stream (front limits stream) :=
      decides_front hmem (by simp [hfront, h])
    rw [hfront] at hdecides
    cases hdecides with
    | negative hstream hneg =>
      subst hstream
      exact .here _ hneg

/-- A stream is steady unless a negative count is reached. -/
theorem steady_front_iff (hmem : stream.length < isizeMax) :
    Steady (front limits) stream ↔ ¬ ReachesNegative limits stream := by
  induction stream, hmem using front_induction (stable_front limits) with
  | item stream args n hmem _ hfront ih =>
    rw [steady_item hfront, ih, reachesNegative_item hmem hfront]
  | needMore stream moved hmem hfront =>
    rw [steady_needMore hfront, reachesNegative_needMore hmem hfront, not_not]
  | fail stream error hmem hfront =>
    refine iff_of_true (steady_fail hfront) ?_
    intro h
    cases h with
    | here more h =>
      rw [front_of_decides hmem (.negative rfl h)] at hfront
      cases hfront
    | later h hmore =>
      rw [front_of_decides hmem (.command rfl h)] at hfront
      cases hfront

/-- However the stream is cut, the reads give the commands and the first protocol
error of one pass over it, and each request for more data leaves the cursor where
it was. -/
structure CutsDoNotMatter (limits : Limits) (stream : Bytes) : Prop where
  outcome : ∀ chunks, chunks.flatten = stream →
    (receiveAll limits chunks).outcome = (receiveAll limits [stream]).outcome
  steady : ∀ chunks, chunks.flatten = stream → (receiveAll limits chunks).steady = true

/-- **Framing.**  The way the bytes of a stream in memory arrive does not matter
exactly if no negative array count is reached. -/
theorem cutsDoNotMatter_iff (limits : Limits) (stream : Bytes) (hmem : stream.length < isizeMax) :
    CutsDoNotMatter limits stream ↔ ¬ ReachesNegative limits stream := by
  rw [← steady_front_iff hmem]
  have hone : receiveAll limits [stream] = drain (front limits) stream := by
    rw [receiveAll_eq_feedAll (by simpa using hmem)]
    simp [feedAll, feed, Session.after]
  constructor
  · intro h
    rw [← steady_drain (stable_front limits) hmem, ← hone]
    exact h.steady [stream] (by simp)
  · intro hsteady
    have hall : ∀ chunks : List Bytes, chunks.flatten = stream →
        (receiveAll limits chunks).outcome = (receiveAll limits [stream]).outcome ∧
          (receiveAll limits chunks).steady = true := by
      intro chunks hchunks
      subst hchunks
      rw [receiveAll_eq_feedAll hmem, hone]
      by_cases hne : chunks = []
      · -- No read at all: the empty stream has no command and no error either.
        subst hne
        exact ⟨rfl, rfl⟩
      · rw [feedAll_eq_drain (stable_front limits) hne hmem hsteady]
        exact ⟨rfl, (steady_drain (stable_front limits) hmem).mpr hsteady⟩
    exact ⟨fun chunks h => (hall chunks h).1, fun chunks h => (hall chunks h).2⟩

end

theorem cutsDoNotMatter_ping : CutsDoNotMatter defaultLimits (ascii "PING\r\n") := by
  have hmem : (ascii "PING\r\n").length < isizeMax := by decide
  have hsteady := (steady_drain (stable_front defaultLimits) hmem).mp (by decide)
  exact (cutsDoNotMatter_iff defaultLimits _ hmem).mpr ((steady_front_iff hmem).mp hsteady)

/-- A `PING` behind a negative count is read only if a read ends between the two. -/
theorem negative_count_cuts :
    (receiveAll defaultLimits [ascii "*-1\r\nPING\r\n"]).outcome = ([], none) ∧
    (receiveAll defaultLimits [ascii "*-1\r\n", ascii "PING\r\n"]).outcome =
      ([[ascii "PING"]], none) ∧
    (receiveAll defaultLimits [ascii "*-1\r\nPING\r\n"]).steady = false := by
  decide

/-! ## Pipelines -/

variable {limits : Limits} {texts : List Bytes} {commands : List (List Bytes)}

/-- One pass over the texts of some commands reads the commands. -/
theorem drain_texts (h : Forall₂ (Command limits) texts commands)
    (hmem : texts.flatten.length < isizeMax) :
    drain (front limits) texts.flatten = ⟨commands, .ok [], true⟩ := by
  induction h with
  | nil => rfl
  | @cons raw args texts commands hcommand _ ih =>
    have hrest : texts.flatten.length < isizeMax := by
      rw [flatten_cons, length_append] at hmem
      omega
    have hfront := front_of_decides hmem (.command flatten_cons hcommand)
    rw [drain_item (stable_front limits) hmem hfront, flatten_cons, drop_left, ih hrest]
    rfl

/-- **Pipelining.**  However the texts of some commands are cut, the parser reads exactly these
commands, without an error and without a byte left over. -/
theorem pipeline_received (hspelled : Forall₂ (Command limits) texts commands)
    (hmem : texts.flatten.length < isizeMax) {chunks : List Bytes}
    (hchunks : chunks.flatten = texts.flatten) :
    receiveAll limits chunks = ⟨commands, .ok [], true⟩ := by
  have hdrain := drain_texts hspelled hmem
  rw [← hchunks] at hdrain hmem
  have hsteady := (steady_drain (stable_front limits) hmem).mp (by rw [hdrain])
  rw [receiveAll_eq_feedAll hmem]
  by_cases hne : chunks = []
  · subst hne
    exact hdrain
  · rw [feedAll_eq_drain (stable_front limits) hne hmem hsteady, hdrain]

/-- An array command and an inline one, in three reads. -/
theorem pipeline_received_two :
    receiveAll defaultLimits [ascii "*1\r\n$4\r\nPI", ascii "NG\r\nGET", ascii " a\r\n"] =
      ⟨[[ascii "PING"], [ascii "GET", ascii "a"]], .ok [], true⟩ := by
  have hbulk : BulkString defaultLimits (ascii "$4\r\nPING\r\n") (ascii "PING") :=
    @BulkString.data defaultLimits (ascii "4\r\n") (ascii "PING") ⟨ascii "4", rfl, by decide⟩
      (by decide)
  have harray : Command defaultLimits (ascii "*1\r\n$4\r\nPING\r\n") [ascii "PING"] :=
    .array ⟨ascii "1", rfl, by decide⟩ (by decide) (.cons hbulk .nil)
  have hinline : Command defaultLimits (ascii "GET a\r\n") [ascii "GET", ascii "a"] :=
    @Command.inline defaultLimits (ascii "GET a\r") (by decide) (by decide) (by decide)
  exact pipeline_received (.cons harray (.cons hinline .nil)) (by decide) (by decide)

end Lux.Resp
