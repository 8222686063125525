import Lux.StdText

/-!
# Migration text

A migration is a text of commands. `split_statements` cuts it at the semicolons and takes the
comments out, `split_command_line` cuts a statement into arguments, and each has its own account of
quotes and escapes. A text without a semicolon is read line by line.

An argument in double quotes passes through both as it is, whatever its characters
(`splitLoop_quoted`, `commandLoop_quoted`). But an argument ends only where characters have been
collected, so an empty one is lost: `parse_written_iff`.
-/

namespace Lux.Migrations

open StdText List

/-! ## The two scanners -/

/-- The loop of `split_statements`, from the open quote and whether it is in a comment. -/
def splitLoop (statements : List Str) (current : Str) (saw : Bool) :
    Option Char → Bool → Str → List Str × Str × Bool
  | _, _, [] => (statements, current, saw)
  | quote, true, ch :: chars =>
    if ch = '\n' then splitLoop statements (current ++ [' ']) saw quote false chars
    else splitLoop statements current saw quote true chars
  | some expected, false, ch :: chars =>
    if ch = '\\' then
      match chars with
      | [] => (statements, current ++ [ch], saw)
      | next :: chars =>
        splitLoop statements (current ++ [ch, next]) saw (some expected) false chars
    else
      splitLoop statements (current ++ [ch]) saw (if ch = expected then none else some expected)
        false chars
  | none, false, ch :: chars =>
    if ch = '#' then splitLoop statements current saw none true chars
    else if ch = '-' ∧ chars.head? = some '-' then
      match chars with
      | [] => (statements, current, saw)
      | _ :: chars => splitLoop statements current saw none true chars
    else if ch = '"' ∨ ch = '\'' then
      splitLoop statements (current ++ [ch]) saw (some ch) false chars
    else if ch = ';' then splitLoop (statements ++ [current]) [] true none false chars
    else
      splitLoop statements (current ++ [if ch = '\n' ∨ ch = '\r' then ' ' else ch]) saw none false
        chars

def splitStatements (content : Str) : List Str × Bool :=
  let (statements, current, saw) := splitLoop [] [] false none false content
  (if trim current = [] then statements else statements ++ [current], saw)

/-- An argument ends, if there is any of it. -/
def takeArgument (args : List Str) (current : Str) : List Str :=
  if current = [] then args else args ++ [current]

def commandLoop (args : List Str) (current : Str) : Option Char → Str → Except Str (List Str)
  | none, [] => .ok (takeArgument args current)
  | some expected, [] => .error (str "unterminated " ++ expected :: str " quote")
  | some expected, ch :: chars =>
    if ch = expected then commandLoop args current none chars
    else if ch = '\\' then
      match chars with
      | [] => commandLoop args current (some expected) []
      | next :: chars => commandLoop args (current ++ [next]) (some expected) chars
    else commandLoop args (current ++ [ch]) (some expected) chars
  | none, ch :: chars =>
    if ch = '"' ∨ ch = '\'' then commandLoop args current (some ch) chars
    else if isWhitespace ch then commandLoop (takeArgument args current) [] none chars
    else commandLoop args (current ++ [ch]) none chars

def splitCommandLine (input : Str) : Except Str (List Str) := commandLoop [] [] none input

/-! ## The parser -/

section Parser

variable (fromJson : Str → Except Str (List Str))

/-- What is done with a trimmed statement or line: the commands it gives, at most one. -/
def parseCommand (unit : Str) (index : Nat) (text : Str) : Except Str (List (List Str)) :=
  let place := str "ERR " ++ unit ++ ' ' :: showNat (index + 1)
  if text.head? = some '[' then
    match fromJson text with
    | .error error => .error (place ++ str " is not a valid JSON argv array: " ++ error)
    | .ok [] => .error (place ++ str " has an empty command")
    | .ok parsed => .ok [parsed]
  else
    match splitCommandLine text with
    | .error error => .error (place ++ str " could not be parsed: " ++ error)
    | .ok parsed => .ok (if parsed = [] then [] else [parsed])

/-- `str::lines`. -/
def lines (content : Str) : List Str :=
  let cut := content.splitOnP (· == '\n')
  (if cut.getLast? = some [] then cut.dropLast else cut).map fun line =>
    if line.getLast? = some '\r' then line.dropLast else line

def parseMigrationLines (content : Str) : Except Str (List (List Str)) :=
  ((lines content).zipIdx.mapM fun (raw, index) =>
    let line := trim raw
    if line = [] ∨ line.head? = some '#' ∨ str "--" <+: line then pure []
    else parseCommand fromJson (str "line") index line).map flatten

def parseMigrationCommands (content : Str) : Except Str (List (List Str)) :=
  let (statements, sawSemicolon) := splitStatements content
  if !sawSemicolon then parseMigrationLines fromJson content
  else
    (statements.zipIdx.mapM fun (statement, index) =>
      let statement := trim statement
      if statement = [] then pure []
      else parseCommand fromJson (str "statement") index statement).map flatten

end Parser

/-! ## Commands as text -/

def escaped (arg : Str) : Str :=
  arg.flatMap fun ch => if ch = '"' ∨ ch = '\\' then ['\\', ch] else [ch]

def quoted (arg : Str) : Str := '"' :: (escaped arg ++ ['"'])

/-- The arguments of a command in quotes, each behind a blank. -/
def statement (command : List Str) : Str := command.flatMap fun arg => ' ' :: quoted arg

def written (commands : List (List Str)) : Str := commands.flatMap fun c => statement c ++ [';']

/-- The texts or commands that are not empty. -/
def kept {α : Type} [DecidableEq α] (l : List (List α)) : List (List α) := l.filter (· ≠ [])

theorem kept_cons {α : Type} [DecidableEq α] (a : List α) (l : List (List α)) :
    kept (a :: l) = (if a = [] then [] else [a]) ++ kept l := by
  by_cases h : a = [] <;> simp [kept, h]

theorem escaped_cons (ch : Char) (arg : Str) : escaped (ch :: arg) =
    (if ch = '"' ∨ ch = '\\' then ['\\', ch] else [ch]) ++ escaped arg := rfl

theorem statement_cons (arg : Str) (command : List Str) :
    statement (arg :: command) = ' ' :: (quoted arg ++ statement command) := rfl

section Splitting

variable {statements : List Str} {saw : Bool}

theorem splitLoop_escaped (arg rest : Str) : ∀ current,
    splitLoop statements current saw (some '"') false (escaped arg ++ rest) =
      splitLoop statements (current ++ escaped arg) saw (some '"') false rest := by
  induction arg with
  | nil => simp [escaped]
  | cons ch arg ih =>
    intro current
    rw [escaped_cons, append_assoc, ← append_assoc current, ← ih]
    split
    · simp [splitLoop]
    · next hplain =>
      rw [not_or] at hplain
      rw [singleton_append, splitLoop.eq_def]
      simp [hplain]

/-- **A quoted argument in a statement** is taken over as it is: it starts no comment and ends no
statement. -/
theorem splitLoop_quoted (current arg rest : Str) :
    splitLoop statements current saw none false (quoted arg ++ rest) =
      splitLoop statements (current ++ quoted arg) saw none false rest := by
  have hopen : splitLoop statements current saw none false (quoted arg ++ rest) =
      splitLoop statements (current ++ ['"']) saw (some '"') false
        (escaped arg ++ '"' :: rest) := by
    rw [splitLoop.eq_def]
    simp [quoted]
  rw [hopen, splitLoop_escaped, splitLoop.eq_def]
  simp [quoted]

theorem splitLoop_statement (command : List Str) (rest : Str) : ∀ current,
    splitLoop statements current saw none false (statement command ++ rest) =
      splitLoop statements (current ++ statement command) saw none false rest := by
  induction command with
  | nil => simp [statement]
  | cons arg command ih =>
    intro current
    rw [statement_cons, cons_append, splitLoop.eq_def]
    simp [splitLoop_quoted, ih]

end Splitting

/-- The statements of a written text are the commands'. -/
theorem splitLoop_written (commands : List (List Str)) : ∀ statements saw,
    splitLoop statements [] saw none false (written commands) =
      (statements ++ commands.map statement, [], saw || commands ≠ []) := by
  induction commands with
  | nil => simp [written, splitLoop]
  | cons command commands ih =>
    intro statements saw
    have hcons : written (command :: commands) =
        statement command ++ (';' :: written commands) := by simp [written]
    rw [hcons, splitLoop_statement, splitLoop.eq_def]
    simp [ih]

theorem commandLoop_escaped (args : List Str) (arg rest : Str) : ∀ current,
    commandLoop args current (some '"') (escaped arg ++ '"' :: rest) =
      commandLoop args (current ++ arg) none rest := by
  induction arg with
  | nil =>
    intro current
    rw [commandLoop.eq_def]
    simp [escaped]
  | cons ch arg ih =>
    intro current
    rw [escaped_cons]
    split
    · simp [commandLoop, ih]
    · next hplain =>
      rw [not_or] at hplain
      rw [append_assoc, singleton_append, commandLoop.eq_def]
      simp [hplain, ih]

/-- **A quoted argument on a command line** is its characters. -/
theorem commandLoop_quoted (args : List Str) (current arg rest : Str) :
    commandLoop args current none (quoted arg ++ rest) =
      commandLoop args (current ++ arg) none rest := by
  rw [← commandLoop_escaped args arg rest current, commandLoop.eq_def]
  simp [quoted]

/-- A statement gives its arguments, those apart that are empty. -/
theorem commandLoop_statement (command : List Str) : ∀ args current,
    commandLoop args current none (statement command) =
      .ok (args ++ kept (current :: command)) := by
  have htake : ∀ args current, takeArgument args current = args ++ kept [current] := by
    intro args current
    by_cases h : current = [] <;> simp [takeArgument, kept, h]
  induction command with
  | nil => simp [statement, commandLoop, htake]
  | cons arg command ih =>
    intro args current
    have hws : isWhitespace ' ' = true := by decide
    rw [statement_cons, commandLoop.eq_def]
    simp [hws, commandLoop_quoted, ih, htake, kept_cons]
    rfl

/-- A statement with arguments, trimmed. -/
theorem trim_statement (arg : Str) (command : List Str) :
    trim (statement (arg :: command)) = quoted arg ++ statement command := by
  have hquote : isWhitespace '"' = false := by decide
  have hlast : ∀ command arg, (quoted arg ++ statement command).getLast? = some '"' := by
    intro command
    induction command with
    | nil => simp [statement, quoted, getLast?_cons]
    | cons arg' command ih =>
      intro arg
      rw [statement_cons, getLast?_append_of_ne_nil _ (cons_ne_nil _ _),
        getLast?_cons_of_ne_nil (by simp [quoted]), ih]
  rw [statement_cons]
  refine trim_eq_self (s := quoted arg ++ statement command) (fun c hc => ?_) fun c hc => ?_
  · rw [← Option.some.inj hc, hquote]
  · rw [hlast] at hc
    rw [← Option.some.inj hc, hquote]

section

variable (fromJson : Str → Except Str (List Str))

theorem parseCommand_statement (unit : Str) (index : Nat) (arg : Str) (command : List Str) :
    parseCommand fromJson unit index (quoted arg ++ statement command) =
      .ok (kept [kept (arg :: command)]) := by
  have hhead : (quoted arg ++ statement command).head? ≠ some '[' := by
    simp [quoted]
  have hread : splitCommandLine (quoted arg ++ statement command) =
      .ok (kept (arg :: command)) := by
    rw [splitCommandLine, commandLoop_quoted, commandLoop_statement, nil_append, nil_append]
  rw [parseCommand, if_neg hhead, hread, kept_cons (kept _)]
  simp [kept]

/-- **What is read of a written text**: the arguments that are not empty, of the commands that have
any. -/
theorem parse_written (commands : List (List Str)) :
    parseMigrationCommands fromJson (written commands) = .ok (kept (commands.map kept)) := by
  rw [parseMigrationCommands, splitStatements, splitLoop_written]
  cases commands with
  | nil => rfl
  | cons command commands =>
    simp only [nil_append, trim_nil, if_true, ne_eq, reduceCtorEq, not_false_eq_true, decide_true,
      Bool.or_true, Bool.not_true, Bool.false_eq_true, if_false]
    generalize command :: commands = commands
    -- Each statement gives one command or none, wherever it stands.
    suffices h : ∀ k, ((commands.map statement).zipIdx k).mapM (fun (p : Str × Nat) =>
        let statement := trim p.1
        if statement = [] then pure []
        else parseCommand fromJson (str "statement") p.2 statement) =
        .ok (commands.map fun c => kept [kept c]) by
      rw [h 0]
      change Except.ok (commands.flatMap fun c => [kept c].filter (· ≠ [])) = _
      rw [← filter_flatMap, ← map_eq_flatMap]
      rfl
    induction commands with
    | nil => exact fun _ => rfl
    | cons command commands ih =>
      intro k
      rw [map_cons, zipIdx_cons, mapM_cons, ih (k + 1)]
      cases command with
      | nil => rfl
      | cons arg command =>
        have hne : quoted arg ++ statement command ≠ [] := by simp [quoted]
        simp only [trim_statement, hne, if_false, parseCommand_statement]
        rfl

/-- **When a written text is read back.**  A quoted argument neither starts a comment nor ends a
statement; and the text gives the commands it was written from exactly if there is no empty
argument, and no command without arguments. -/
theorem parse_written_iff (commands : List (List Str)) :
    (∀ statements saw current arg rest,
      splitLoop statements current saw none false (quoted arg ++ rest) =
        splitLoop statements (current ++ quoted arg) saw none false rest) ∧
    (parseMigrationCommands fromJson (written commands) = .ok commands ↔
      ∀ command ∈ commands, command ≠ [] ∧ ∀ arg ∈ command, arg ≠ []) := by
  refine ⟨fun statements saw current arg rest => splitLoop_quoted current arg rest, ?_⟩
  rw [parse_written, Except.ok.injEq]
  constructor
  · intro h command hcommand
    have hall : kept (commands.map kept) = commands.map kept :=
      filter_sublist.eq_of_length (by rw [← kept, h, length_map])
    have hsame : kept command = command :=
      map_inj_left.mp ((hall.symm.trans h).trans (map_id' commands).symm) command hcommand
    rw [← h] at hcommand
    exact ⟨by simpa using (mem_filter.mp hcommand).2, by simpa [kept, filter_eq_self] using hsame⟩
  · intro h
    have hsame : commands.map kept = commands := by
      refine (map_congr_left fun command hcommand => ?_).trans (map_id' commands)
      simpa [kept, filter_eq_self] using (h command hcommand).2
    rw [hsame, kept, filter_eq_self]
    exact fun command hcommand => by simpa using (h command hcommand).1

end

/-- `SET k ""` is read as `SET k`. -/
theorem empty_argument_lost :
    parseMigrationCommands (fun _ => .error [])
        (written [[str "SET", str "k", []]]) = .ok [[str "SET", str "k"]] := by
  decide

end Lux.Migrations
