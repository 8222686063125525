import Mathlib.Tactic.Common
import Lux.Machine64

/-!
# Deadlines from arguments

The commands that give a key a deadline take a duration or an absolute time, in seconds or in
milliseconds. From it they compute a duration for the monotonic clock and an absolute time for the
journal. Some of the conversions saturate, and adding a duration to an instant stops the process if
the sum is no instant any more.

Times are milliseconds since the epoch; a command reads the clocks once.
-/

namespace Lux.Deadlines

/-! ## The commands -/

/-- The wall clock in milliseconds and the monotonic clock in nanoseconds. -/
structure Clock where
  epoch : Nat
  uptime : Nat
  epoch_lt : epoch < 2 ^ 63
  uptime_lt : uptime < 2 ^ 63 * 10 ^ 9

/-- A key that is there: its deadline, and the error if its value cannot be decrypted. -/
structure Key where
  deadline : Option Nat
  sealed : Option String
  deriving DecidableEq

inductive Command where
  | setEx | setPx | setExat | setPxat | setex | psetex
  | getexEx | getexPx | getexExat | getexPxat
  | expire | pexpire | expireat | pexpireat
  | restore | restoreAbsttl
  deriving DecidableEq

def integerErr : String := "ERR value is not an integer or out of range"

def invalidExpire (command : String) : String :=
  "ERR invalid expire time in '" ++ command ++ "' command"

/-- `parse_u64`. -/
def parseU64 (arg : Int) : Except String Nat :=
  if 0 ≤ arg ∧ arg < 2 ^ 64 then .ok arg.toNat else .error integerErr

/-- `parse_positive_ttl`. -/
def parsePositiveTtl (command : String) (arg : Int) : Except String Nat :=
  match parseU64 arg with
  | .ok 0 => .error (invalidExpire command)
  | result => result

/-- The argument of `SETEX`. -/
def parseSetex (arg : Int) : Except String Nat :=
  if -2 ^ 63 ≤ arg ∧ arg < 2 ^ 63 then
    if arg ≤ 0 then .error (invalidExpire "setex") else .ok arg.toNat
  else .error integerErr

/-- The argument of `RESTORE`. -/
def parseRestore (arg : Int) : Except String Nat :=
  if -2 ^ 63 ≤ arg ∧ arg < 2 ^ 63 then
    if arg < 0 then .error "ERR Invalid TTL value, must be >= 0" else .ok arg.toNat
  else .error integerErr

def Command.parse : Command → Int → Except String Nat
  | .setEx | .setPx => parsePositiveTtl "set"
  | .psetex => parsePositiveTtl "psetex"
  | .getexEx | .getexPx => parsePositiveTtl "getex"
  | .setex => parseSetex
  | .restore | .restoreAbsttl => parseRestore
  | .setExat | .setPxat | .getexExat | .getexPxat | .expire | .pexpire | .expireat | .pexpireat =>
    parseU64

/-- The largest `u64`, at which the conversions saturate. -/
def sat (n : Nat) : Nat := min n (2 ^ 64 - 1)

/-- The duration a command adds to the clock, and the time it journals. -/
structure Plan where
  ttl : Nat
  record : Nat
  deriving DecidableEq

/-- `Duration::from_secs`, and `deadline_ms` of it. -/
def fromSecs (c : Clock) (n : Nat) : Plan := ⟨n * 1000, sat (c.epoch + sat (n * 1000))⟩

/-- `Duration::from_millis`, and the time it ends. -/
def fromMillis (c : Clock) (n : Nat) : Plan := ⟨n, sat (c.epoch + n)⟩

/-- A time in seconds. -/
def atSecs (c : Clock) (n : Nat) : Plan := ⟨sat (n * 1000) - c.epoch, sat (n * 1000)⟩

/-- A time in milliseconds. -/
def atMillis (c : Clock) (n : Nat) : Plan := ⟨n - c.epoch, n⟩

def Command.plan : Command → Clock → Nat → Plan
  | .setEx | .getexEx | .setex => fromSecs
  | .setPx | .getexPx | .psetex | .pexpire => fromMillis
  | .setExat | .getexExat | .expireat => atSecs
  | .setPxat | .getexPxat | .pexpireat | .restoreAbsttl => atMillis
  -- `EXPIRE` turns its seconds into milliseconds before it makes a duration of them.
  | .expire => fun c n => fromMillis c (sat (n * 1000))
  -- `RESTORE` computes with signed numbers.
  | .restore => fun c n => ⟨n, min (c.epoch + n) (2 ^ 63 - 1)⟩

/-- `now + duration`, as a time; none if the clock overflows. -/
def Clock.add (c : Clock) (ttl : Nat) : Option Nat :=
  if c.uptime + ttl * 10 ^ 6 < 2 ^ 63 * 10 ^ 9 then some (c.epoch + ttl) else none

/-- What a command leaves: its error if there is one, the key, and the time it journaled. -/
structure Result where
  error : Option String
  key : Option Key
  record : Option Nat
  deriving DecidableEq

/-- The key gets its deadline. -/
def setDeadline (c : Clock) (p : Plan) (error sealed : Option String) : Option Result :=
  (c.add p.ttl).map fun deadline => ⟨error, some ⟨some deadline, sealed⟩, some p.record⟩

/-- The commands once the argument is read. -/
def Command.apply (cmd : Command) (c : Clock) (key : Option Key) (n : Nat) : Option Result :=
  let p := cmd.plan c n
  match cmd with
  | .setEx | .setPx | .setExat | .setPxat | .setex | .psetex => setDeadline c p none none
  | .getexEx | .getexPx | .getexExat | .getexPxat =>
    match key with
    | none => some ⟨none, none, none⟩
    -- The value is decrypted after the deadline has been set.
    | some k => setDeadline c p k.sealed k.sealed
  | .expire | .pexpire | .expireat | .pexpireat =>
    match key with
    | none => some ⟨none, none, none⟩
    | some k =>
      if p.ttl = 0 then some ⟨none, none, some p.record⟩ else setDeadline c p none k.sealed
  | .restore | .restoreAbsttl =>
    if n = 0 then some ⟨none, some ⟨none, none⟩, some 0⟩
    else if p.ttl = 0 then some ⟨none, none, some p.record⟩
    else setDeadline c p none none

/-- A command with its argument; none if it stops the process. -/
def Command.run (cmd : Command) (c : Clock) (key : Option Key) (arg : Int) : Option Result :=
  match cmd.parse arg with
  | .error message => some ⟨some message, key, none⟩
  | .ok n => cmd.apply c key n

/-! ## What they should do -/

/-- The deadline that is asked for. -/
def Command.asked (cmd : Command) (c : Clock) (n : Nat) : Nat :=
  match cmd with
  | .setEx | .getexEx | .setex | .expire => c.epoch + n * 1000
  | .setPx | .getexPx | .psetex | .pexpire | .restore => c.epoch + n
  | .setExat | .getexExat | .expireat => n * 1000
  | .setPxat | .getexPxat | .pexpireat | .restoreAbsttl => n

/-- The commands that only concern a key that is there. -/
def Command.needsKey : Command → Bool
  | .setEx | .setPx | .setExat | .setPxat | .setex | .psetex | .restore | .restoreAbsttl => false
  | _ => true

def Command.isRestore : Command → Bool
  | .restore | .restoreAbsttl => true
  | _ => false

/-- The deadline is the one asked for and so is the journaled one; a key whose deadline has come is
removed. For `RESTORE` zero asks for no deadline. -/
def Command.Stores (cmd : Command) (c : Clock) (n : Nat) (r : Result) : Prop :=
  if cmd.isRestore ∧ n = 0 then ∃ k, r.key = some k ∧ k.deadline = none ∧ r.record = some 0
  else
    r.record = some (cmd.asked c n) ∧
      ((∃ k, r.key = some k ∧ k.deadline = some (cmd.asked c n)) ∨
        r.key = none ∧ cmd.asked c n ≤ c.epoch)

/-- **Refused or exact**: the process goes on; an error changes nothing, and without an error the
key has the deadline, unless there is no key to give one to. -/
def Command.Exact (cmd : Command) (c : Clock) (key : Option Key) (arg : Int) : Prop :=
  ∃ r, cmd.run c key arg = some r ∧
    (r.error ≠ none → r.key = key ∧ r.record = none) ∧
    (r.error = none → (cmd.needsKey = true ∧ key = none ∧ r.key = none ∧ r.record = none) ∨
      ∃ n, cmd.parse arg = .ok n ∧ cmd.Stores c n r)

/-! ## When they do -/

/-- The times that can be journaled. -/
def Command.limit : Command → Nat
  | .restore => 2 ^ 63
  | _ => 2 ^ 64

/-- `SET` and `GETEX` with an absolute time. -/
def Command.keepsPast : Command → Bool
  | .setExat | .setPxat | .getexExat | .getexPxat => true
  | _ => false

def Command.isGetex : Command → Bool
  | .getexEx | .getexPx | .getexExat | .getexPxat => true
  | _ => false

/-- The deadline fits into the journal's number and into the clock, `SET` and `GETEX` are given no
time that has passed, and `GETEX` can read the value. -/
def Command.Fits (cmd : Command) (c : Clock) (key : Option Key) (n : Nat) : Prop :=
  cmd.asked c n < cmd.limit ∧
    c.uptime + (cmd.asked c n - c.epoch) * 10 ^ 6 < 2 ^ 63 * 10 ^ 9 ∧
    (cmd.keepsPast = true → c.epoch ≤ cmd.asked c n) ∧
    (cmd.isGetex = true → ∀ k, key = some k → k.sealed = none)

/-- The commands that remove a key whose deadline has come. -/
def Command.removes : Command → Bool
  | .expire | .pexpire | .expireat | .pexpireat | .restore | .restoreAbsttl => true
  | _ => false

open Command

section Shapes

variable {cmd : Command} {c : Clock} {key : Option Key} {n : Nat}

/-- What every command does: nothing without a key, no deadline for `RESTORE` with zero, a removal
or a deadline. -/
theorem apply_eq : cmd.apply c key n =
    if cmd.needsKey = true ∧ key = none then some ⟨none, none, none⟩
    else if cmd.isRestore = true ∧ n = 0 then some ⟨none, some ⟨none, none⟩, some 0⟩
    else if cmd.removes = true ∧ (cmd.plan c n).ttl = 0 then
      some ⟨none, none, some (cmd.plan c n).record⟩
    else setDeadline c (cmd.plan c n) (if cmd.isGetex then key.bind Key.sealed else none)
      (if cmd.needsKey then key.bind Key.sealed else none) := by
  cases cmd <;> cases key <;>
    simp [apply, needsKey, isRestore, removes, isGetex]

/-- A number that was read is a machine integer. -/
theorem parse_lt {arg : Int} (h : cmd.parse arg = .ok n) : n < 2 ^ 64 := by
  have hu64 : ∀ {m : Nat}, parseU64 arg = .ok m → m < 2 ^ 64 := by
    intro m hm
    rw [parseU64] at hm
    split at hm
    · cases hm
      omega
    · cases hm
  have hpositive : ∀ {name : String}, parsePositiveTtl name arg = .ok n → n < 2 ^ 64 := by
    intro name hm
    rw [parsePositiveTtl] at hm
    split at hm
    · cases hm
    · exact hu64 hm
  have hsetex : parseSetex arg = .ok n → n < 2 ^ 64 := by
    intro hm
    rw [parseSetex] at hm
    split_ifs at hm
    cases hm
    omega
  have hrestore : parseRestore arg = .ok n → n < 2 ^ 64 := by
    intro hm
    rw [parseRestore] at hm
    split_ifs at hm
    cases hm
    omega
  cases cmd with
  | setEx | setPx | psetex | getexEx | getexPx => exact hpositive h
  | setex => exact hsetex h
  | restore | restoreAbsttl => exact hrestore h
  | setExat | setPxat | getexExat | getexPxat | expire | pexpire | expireat | pexpireat =>
    exact hu64 h

/-- The journaled time is the one asked for if it fits, and then so is the duration. -/
theorem plan_spec (cmd : Command) (c : Clock) (hn : n < 2 ^ 64) :
    ((cmd.plan c n).record = cmd.asked c n ↔ cmd.asked c n < cmd.limit) ∧
      (cmd.asked c n < cmd.limit → (cmd.plan c n).ttl = cmd.asked c n - c.epoch) := by
  cases cmd <;>
    simp only [plan, asked, limit, fromSecs, fromMillis, atSecs, atMillis,
      sat, true_iff, implies_true, and_true] <;> omega

/-- A command that does not remove keys asks for a time to come, unless it takes an absolute one. -/
theorem epoch_le_asked (hremoves : cmd.removes = false) (hpast : cmd.keepsPast = false) :
    c.epoch ≤ cmd.asked c n := by
  cases cmd <;> simp_all [removes, keepsPast, asked]

theorem fits_of_zero (c : Clock) (key : Option Key) (h : cmd.isRestore = true ∧ n = 0) :
    cmd.Fits c key n := by
  have hepoch := c.epoch_lt
  have huptime := c.uptime_lt
  cases cmd <;> simp_all [isRestore, Command.Fits, asked, limit,
    keepsPast, isGetex]

theorem fits_of_removes (h : cmd.removes = true) : cmd.Fits c key n ↔
    cmd.asked c n < cmd.limit ∧
      c.uptime + (cmd.asked c n - c.epoch) * 10 ^ 6 < 2 ^ 63 * 10 ^ 9 := by
  cases cmd <;> simp_all [removes, Command.Fits, keepsPast, isGetex]

/-- What fits where a deadline is set and the value can be read. -/
theorem fits_of_kept (hn : n < 2 ^ 64) (hkept : ¬(cmd.removes = true ∧ (cmd.plan c n).ttl = 0))
    (hread : cmd.isGetex = true → ∀ k, key = some k → k.sealed = none) :
    cmd.Fits c key n ↔
      cmd.asked c n < cmd.limit ∧
        c.uptime + (cmd.asked c n - c.epoch) * 10 ^ 6 < 2 ^ 63 * 10 ^ 9 ∧
        c.epoch ≤ cmd.asked c n := by
  constructor
  · rintro ⟨hasked, hclock, hpast, -⟩
    refine ⟨hasked, hclock, ?_⟩
    cases hkeeps : cmd.keepsPast with
    | true => exact hpast hkeeps
    | false =>
      cases hremoves : cmd.removes with
      | false => exact epoch_le_asked hremoves hkeeps
      | true =>
        have hne : (cmd.plan c n).ttl ≠ 0 := fun h => hkept ⟨hremoves, h⟩
        have := (plan_spec cmd c hn).2 hasked
        omega
  · rintro ⟨hasked, hclock, hpast⟩
    exact ⟨hasked, hclock, fun _ => hpast, hread⟩

end Shapes

section Main

variable {cmd : Command} {c : Clock} {n : Nat}

theorem error_of_setDeadline {p : Plan} {error sealed : Option String} {r : Result}
    (h : setDeadline c p error sealed = some r) : r.error = error := by
  rw [setDeadline, Option.map_eq_some_iff] at h
  obtain ⟨d, -, rfl⟩ := h
  rfl

/-- A deadline that is set is the one asked for if it fits and has not passed. -/
theorem stores_setDeadline_iff (hn : n < 2 ^ 64) (hzero : ¬(cmd.isRestore = true ∧ n = 0))
    (error sealed : Option String) :
    (∃ r, setDeadline c (cmd.plan c n) error sealed = some r ∧ cmd.Stores c n r) ↔
      cmd.asked c n < cmd.limit ∧
        c.uptime + (cmd.asked c n - c.epoch) * 10 ^ 6 < 2 ^ 63 * 10 ^ 9 ∧
        c.epoch ≤ cmd.asked c n := by
  obtain ⟨hrecord, httl⟩ := plan_spec cmd c hn
  simp only [setDeadline, Clock.add, Command.Stores, if_neg hzero]
  constructor
  · rintro ⟨r, hr, hstored, hkey⟩
    split_ifs at hr with hclock
    · cases hr
      have hasked := hrecord.mp (Option.some.inj hstored)
      rcases hkey with ⟨k, hk, hdeadline⟩ | ⟨hk, -⟩
      · cases hk
        have := Option.some.inj hdeadline
        omega
      · cases hk
    · cases hr
  · rintro ⟨hasked, hclock, hpast⟩
    rw [httl hasked, if_pos hclock, hrecord.mpr hasked]
    refine ⟨_, rfl, rfl, Or.inl ⟨_, rfl, ?_⟩⟩
    exact congrArg some (by omega)

/-- **Every argument is refused or stored exactly, if and only if** a deadline that is to be set
fits into the journal's number and into the clock, has not passed for `SET` and `GETEX`, and the
value that `GETEX` replies with can be read. -/
theorem exact_iff (cmd : Command) (c : Clock) (key : Option Key) (arg : Int) :
    cmd.Exact c key arg ↔
      ∀ n, cmd.parse arg = .ok n → (cmd.needsKey = true → key ≠ none) → cmd.Fits c key n := by
  rw [Command.Exact, run]
  cases hparse : cmd.parse arg with
  | error message =>
    constructor
    · intro _ n h
      cases h
    · intro _
      exact ⟨_, rfl, fun _ => ⟨rfl, rfl⟩, fun h => absurd h (Option.some_ne_none message)⟩
  | ok n =>
    have hn := parse_lt hparse
    obtain ⟨hrecord, httl⟩ := plan_spec cmd c hn
    simp only [apply_eq, Except.ok.injEq, forall_eq', exists_eq_left']
    by_cases hmissing : cmd.needsKey = true ∧ key = none
    · rw [if_pos hmissing]
      constructor
      · intro _ hkey
        exact absurd hmissing.2 (hkey hmissing.1)
      · intro _
        refine ⟨_, rfl, fun h => absurd rfl h, fun _ => Or.inl ⟨hmissing.1, hmissing.2, rfl, rfl⟩⟩
    rw [if_neg hmissing]
    have hkey : cmd.needsKey = true → key ≠ none := fun h h' => hmissing ⟨h, h'⟩
    have hpresent : ∀ r : Result, ¬(cmd.needsKey = true ∧ key = none ∧ r.key = none ∧
        r.record = none) := fun r h => hmissing ⟨h.1, h.2.1⟩
    simp only [hpresent, false_or, forall_prop_of_true hkey]
    by_cases hzero : cmd.isRestore = true ∧ n = 0
    · rw [if_pos hzero]
      constructor
      · intro _
        exact fits_of_zero c key hzero
      · intro _
        refine ⟨_, rfl, fun h => absurd rfl h, fun _ => ?_⟩
        rw [Command.Stores, if_pos hzero]
        exact ⟨_, rfl, rfl, rfl⟩
    rw [if_neg hzero]
    by_cases hgone : cmd.removes = true ∧ (cmd.plan c n).ttl = 0
    · rw [if_pos hgone, fits_of_removes hgone.1]
      simp only [Command.Stores, if_neg hzero]
      constructor
      · rintro ⟨r, hr, -, hstores⟩
        cases hr
        obtain ⟨hstored, hkey⟩ := hstores rfl
        have hasked := hrecord.mp (Option.some.inj hstored)
        have := c.uptime_lt
        exact ⟨hasked, by omega⟩
      · rintro ⟨hasked, -⟩
        refine ⟨_, rfl, fun h => absurd rfl h, fun _ => ?_⟩
        exact ⟨congrArg some (hrecord.mpr hasked), Or.inr ⟨rfl, by omega⟩⟩
    rw [if_neg hgone]
    -- Only `GETEX` replies with an error once it has set the deadline.
    by_cases hread : cmd.isGetex = true → ∀ k, key = some k → k.sealed = none
    · have hnone : (if cmd.isGetex then key.bind Key.sealed else none) = none := by
        cases hgetex : cmd.isGetex with
        | false => rfl
        | true =>
          cases key with
          | none => rfl
          | some k => exact hread hgetex k rfl
      rw [fits_of_kept hn hgone hread, ← stores_setDeadline_iff hn hzero, hnone]
      apply exists_congr
      intro r
      apply and_congr_right
      intro hr
      rw [error_of_setDeadline hr]
      simp
    constructor
    · rintro ⟨r, hr, herror, -⟩
      obtain ⟨hgetex, hsealed⟩ := Classical.not_imp.mp hread
      obtain ⟨k, hk⟩ := not_forall.mp hsealed
      obtain ⟨rfl, hne⟩ := Classical.not_imp.mp hk
      rw [error_of_setDeadline hr, hgetex] at herror
      have hrecord := (herror hne).2
      rw [setDeadline, Option.map_eq_some_iff] at hr
      obtain ⟨d, -, rfl⟩ := hr
      cases hrecord
    · exact fun hfits => absurd hfits.2.2.2 hread

/-- A second after the start, and a second after the epoch. -/
def early : Clock := ⟨1000, 10 ^ 9, by decide, by decide⟩

/-- The largest argument of `SETEX` and the same one for `SET EX` stop the process, `EXPIRE`
stores another deadline than it is asked for, `PEXPIRE` journals another one than it stores, `SET
PXAT` with a time that has passed stores the current one, and `GETEX` replies with an error when
it has changed the deadline. -/
theorem deadlines_missed :
    setex.run early none (2 ^ 63 - 1) = none ∧
      setEx.run early none (2 ^ 63 - 1) = none ∧
      expire.run early (some ⟨none, none⟩) (2 ^ 63) =
        some ⟨none, some ⟨some (1000 + (2 ^ 64 - 1)), none⟩, some (2 ^ 64 - 1)⟩ ∧
      pexpire.run early (some ⟨none, none⟩) (2 ^ 64 - 1) =
        some ⟨none, some ⟨some (1000 + (2 ^ 64 - 1)), none⟩, some (2 ^ 64 - 1)⟩ ∧
      setPxat.run early none 1 = some ⟨none, some ⟨some 1000, none⟩, some 1⟩ ∧
      getexPx.run early (some ⟨none, some "ERR"⟩) 5 =
        some ⟨some "ERR", some ⟨some 1005, some "ERR"⟩, some 1005⟩ := by
  decide +kernel

end Main

end Lux.Deadlines
