import Lux.StringCommands

/-!
# String commands and the types of values

A command on a string should refuse a value of another type and leave it alone, and on a string
it should not matter in which representation the bytes are held. `refuses_iff` says which
commands refuse: those that look at the type, once their arguments have passed; `APPEND`, `GETSET`
and `GETDEL` do not look. `agree_iff` says that the representation matters to `INCRBYFLOAT`
alone, which reads shared strings only.
-/

namespace Lux.Strings

open ByteCodec StdText BitString BitField Strings

/-- A deadline that has not passed, or none. -/
abbrev Standing (now : Instant) := { deadline : Option Instant // deadline.any (· < now) = false }

section Live

variable {now : Instant} (value : Value) (deadline : Standing now)

/-- An entry whose deadline has not passed is what every command sees. -/
@[simp] theorem live_standing : live (some ⟨value, deadline.1⟩) now = some ⟨value, deadline.1⟩ := by
  simp [live, Cell.isExpiredAt, deadline.2]

@[simp] theorem getRaw_standing : getRaw (some ⟨value, deadline.1⟩) now = value.stringBytes := by
  simp [getRaw]

@[simp] theorem writable_standing :
    writable (some ⟨value, deadline.1⟩) now = ⟨value, deadline.1⟩ := by
  simp [writable]

end Live

/-- Both representations are strings, and nothing else is. -/
@[simp] theorem stringBytes_shared (bytes : Bytes) :
    (Value.shared bytes).stringBytes = some bytes := rfl

@[simp] theorem stringBytes_growable (bytes : Bytes) :
    (Value.growable bytes).stringBytes = some bytes := rfl

@[simp] theorem stringBytes_other (value : NonString) :
    (Value.other value).stringBytes = none := rfl

/-! ## Errors in arguments -/

/-- No error of the computation is the one about types. -/
def Untyped {α : Type} (x : Except String α) : Prop := ∀ message, x = .error message →
  message ≠ wrongType

/-- No message about the number of arguments is the one about types: they begin differently. -/
@[simp] theorem arityErr_ne (name : String) : arityErr name ≠ wrongType := by
  intro h
  have hchars := congrArg String.toList h
  unfold arityErr wrongType at hchars
  rw [String.toList_append, String.toList_append] at hchars
  cases hchars

@[simp] theorem integerErr_ne : integerErr ≠ wrongType := by decide

@[simp] theorem tooLargeErr_ne : tooLargeErr ≠ wrongType := by decide

variable {α : Type}

/-- Success is not a type error. -/
theorem Untyped.ok (a : α) : Untyped (.ok a : Except String α) :=
  fun _ h => by cases h

theorem Untyped.error {message : String} (h : message ≠ wrongType) :
    Untyped (.error message : Except String α) := by
  intro other hother
  injection hother with hother
  rw [← hother]
  exact h

/-- Steps that do not look at the value, one after the other. -/
theorem Untyped.bind {β : Type} {x : Except String α} {f : α → Except String β} (hx : Untyped x)
    (hf : ∀ a, Untyped (f a)) : Untyped (x >>= f) := by
  cases x with
  | error message => exact Untyped.error (hx message rfl)
  | ok a => exact hf a

theorem Untyped.ite {c : Prop} [Decidable c] {x y : Except String α} (hx : Untyped x)
    (hy : Untyped y) : Untyped (if c then x else y) := by
  split
  · exact hx
  · exact hy

theorem Untyped.dite {c : Prop} [Decidable c] {x : c → Except String α} {y : ¬ c → Except String α}
    (hx : ∀ h, Untyped (x h)) (hy : ∀ h, Untyped (y h)) : Untyped (if h : c then x h else y h) := by
  split
  · exact hx _
  · exact hy _

/-- The checks of the arguments of `BITFIELD` never answer with a type error: the type first. -/
theorem untyped_parseBitfieldType (arg : Bytes) : Untyped (parseBitfieldType arg) := by
  have herr : typeErr ≠ wrongType := by decide
  unfold parseBitfieldType
  split
  · exact .error herr
  split
  · split
    · exact .error herr
    · exact .dite (fun _ => .ok _) fun _ => .error herr
  · exact .error herr

theorem untyped_parseBitfieldOffset (arg : Bytes) (width : Width) (maxBytes : Nat) :
    Untyped (parseBitfieldOffset arg width maxBytes) := by
  have herr : offsetErr ≠ wrongType := by decide
  unfold parseBitfieldOffset
  split
  split
  · exact .error herr
  · exact .dite (fun _ => .ite (.ok _) (.error herr)) fun _ => .error herr

theorem untyped_parseField (typeArg offsetArg : Bytes) (maxBytes : Nat) :
    Untyped (parseField typeArg offsetArg maxBytes) :=
  (untyped_parseBitfieldType typeArg).bind fun width =>
    untyped_parseBitfieldOffset offsetArg width maxBytes

theorem untyped_parseWrite (typeArg offsetArg valueArg : Bytes) (maxBytes : Nat) :
    Untyped (parseWrite typeArg offsetArg valueArg maxBytes) := by
  refine (untyped_parseField typeArg offsetArg maxBytes).bind fun f => ?_
  split
  · exact .ok _
  · exact .error (by decide)

theorem untyped_parseOverflow (arg : Bytes) : Untyped (parseOverflow arg) := by
  exact .ite (.ok _) (.ite (.ok _) (.ite (.ok _) (.error (by decide))))

/-- The list of operations, by induction on what is left of the arguments. -/
theorem untyped_parseOps (readonly : Bool) (maxBytes : Nat) (overflow : Overflow)
    (args : List Bytes) : Untyped (parseOps readonly maxBytes overflow args) := by
  have hsyntax : syntaxErr ≠ wrongType := by decide
  fun_induction parseOps readonly maxBytes overflow args with
  | case1 => exact .ok _
  | case2 overflow word _ typeArg offsetArg rest ih =>
    exact (untyped_parseField _ _ _).bind fun f => ih.bind fun ops => .ok _
  | case3 => exact .error hsyntax
  | case4 overflow word _ _ typeArg offsetArg valueArg rest ih =>
    exact (untyped_parseWrite _ _ _ _).bind fun p => ih.bind fun ops => .ok _
  | case5 => exact .error hsyntax
  | case6 overflow word _ _ _ typeArg offsetArg valueArg rest ih =>
    exact (untyped_parseWrite _ _ _ _).bind fun p => ih.bind fun ops => .ok _
  | case7 => exact .error hsyntax
  | case8 overflow word _ _ _ _ modeArg rest ih =>
    exact (untyped_parseOverflow modeArg).bind ih
  | case9 => exact .error hsyntax
  | case10 => exact .error (by decide)
  | case11 => exact .error hsyntax

/-- Nor do the checks of `SETBIT`. -/
theorem untyped_setbitArgs (env : Env) (offsetArg bitArg : Bytes) :
    Untyped (setbitArgs env offsetArg bitArg) := by
  have hoffset : offsetErr ≠ wrongType := by decide
  have hbitOffset : Untyped (bitOffset offsetArg) := by
    unfold bitOffset
    split
    · exact .ite (.ok _) (.error hoffset)
    · exact .error hoffset
  have hbitValue : Untyped (bitValue bitArg) := by
    exact .ite (.ok _) (.ite (.ok _) (.error (by decide)))
  refine hbitOffset.bind fun offset => hbitValue.bind fun bit => ?_
  exact .ite (.error hoffset) (.ok _)

/-- Nor does reading a float. -/
theorem untyped_finiteFloat (text : Str) : Untyped (finiteFloat text) := by
  unfold finiteFloat
  split
  · exact .error (by decide)
  · split
    · exact .error (by decide)
    · exact .ite (.error (by decide)) (.ok _)

/-! ## Values of other types -/

/-- The command looks at the type of the value, and its arguments pass the checks before that. -/
def reachesTypeCheck (env : Env) : Mutation → List Bytes → Bool
  | .setrange, offsetArg :: value :: _ =>
    (parseUsize (argStr offsetArg)).any fun offset =>
      offset + value.length < 2 ^ 64 ∧ offset + value.length ≤ env.maxRespRequest
  | .setbit, [offsetArg, bitArg] => (setbitArgs env offsetArg bitArg).toOption.isSome
  | .bitfield, args => (parseOps false env.maxRespRequest .wrap args).toOption.isSome
  | .incr, [] => true
  | .decr, [] => true
  | .incrby, arg :: _ => (parseInteger arg).isSome
  | .decrby, arg :: _ => (parseInteger arg).isSome
  | .incrbyfloat, [arg] => (finiteFloat (argStr arg)).toOption.isSome
  | _, _ => false

section Other

variable (env : Env) {now : Instant} (value : NonString) (deadline : Standing now)

/-- A value of another type under the key. -/
abbrev otherSlot : Option Cell := some ⟨.other value, deadline.1⟩

/-- A value of another type is not taken for an encrypted string. -/
@[simp] theorem kvStringIsEncrypted_other :
    kvStringIsEncrypted env (otherSlot value deadline) now = false := by
  simp [kvStringIsEncrypted]

/-- The outcome that refuses the value and leaves it. -/
abbrev refused : Option Cell × Reply := (otherSlot value deadline, .error wrongType)

/-- The command refuses the value and leaves it. -/
def Refuses (m : Mutation) (args : List Bytes) : Prop :=
  execute env (otherSlot value deadline) now m args =
    (otherSlot value deadline, .error wrongType)

variable {env value deadline}

/-- The counters refuse a value of another type. -/
theorem incr_other (delta : Int64) :
    replied (incr (otherSlot value deadline) now delta) = refused value deadline := by
  simp [replied, incr]

/-- `INCR` and `DECR` get that far without further arguments only. -/
theorem refuses_cmdIncrOne (name : String) (delta : Int64) (args : List Bytes) :
    cmdIncrOne env (otherSlot value deadline) now name delta args = refused value deadline ↔
      args = [] := by
  cases args with
  | nil => simp [cmdIncrOne, incr_other]
  | cons arg args => simp [cmdIncrOne]

/-- `INCRBY` and `DECRBY` get that far if the first argument is an integer. -/
theorem refuses_cmdIncrStep (name : String) (step : Int64 → Int64) (args : List Bytes) :
    cmdIncrStep env (otherSlot value deadline) now name step args = refused value deadline ↔
      ∃ arg rest, args = arg :: rest ∧ (parseInteger arg).isSome = true := by
  cases args with
  | nil => simp [cmdIncrStep]
  | cons arg args =>
    cases harg : parseInteger arg with
    | none => simp [cmdIncrStep, harg]
    | some delta => simp [cmdIncrStep, harg, incr_other]

/-- `BITFIELD` refuses a value of another type before it applies an operation. -/
theorem bitfield_other (ops : List BitfieldOp) :
    bitfield (otherSlot value deadline) now ops =
      (otherSlot value deadline, .error wrongType) := by
  unfold bitfield
  split
  · simp
  · simp

variable (args : List Bytes)

/-- `SETRANGE` checks offset and size before it looks at the value. -/
theorem refuses_cmdSetrange :
    cmdSetrange env (otherSlot value deadline) now args = refused value deadline ↔
      reachesTypeCheck env .setrange args = true := by
  rcases args with _ | ⟨offsetArg, _ | ⟨bytes, args⟩⟩
  · simp [cmdSetrange, reachesTypeCheck]
  · simp [cmdSetrange, reachesTypeCheck]
  · cases hoffset : parseUsize (argStr offsetArg) with
    | none => simp [cmdSetrange, reachesTypeCheck, hoffset]
    | some offset =>
      by_cases hfits : 2 ^ 64 ≤ offset + bytes.length
      · simp only [cmdSetrange, reachesTypeCheck, hoffset, hfits]
        simp
        omega
      by_cases hsize : env.maxRespRequest < offset + bytes.length
      · have hnot : ¬ offset + bytes.length ≤ env.maxRespRequest := not_le.mpr hsize
        simp only [cmdSetrange, reachesTypeCheck, hoffset, hfits, hsize]
        simp [hnot]
      · simp only [cmdSetrange, reachesTypeCheck, hoffset, hfits, hsize]
        simp [replied, setrange]
        omega

/-- `SETBIT` checks offset and bit first. -/
theorem refuses_cmdSetbit :
    cmdSetbit env (otherSlot value deadline) now args = refused value deadline ↔
      reachesTypeCheck env .setbit args = true := by
  rcases args with _ | ⟨offsetArg, _ | ⟨bitArg, _ | ⟨extra, args⟩⟩⟩
  · simp [cmdSetbit, reachesTypeCheck]
  · simp [cmdSetbit, reachesTypeCheck]
  · cases hargs : setbitArgs env offsetArg bitArg with
    | error message =>
      have hmessage := untyped_setbitArgs env offsetArg bitArg message hargs
      simp [cmdSetbit, reachesTypeCheck, hargs, hmessage, Except.toOption]
    | ok parsed => simp [cmdSetbit, reachesTypeCheck, hargs, replied, setbit, Except.toOption]
  · simp [cmdSetbit, reachesTypeCheck]

/-- `BITFIELD` parses all operations first. -/
theorem refuses_cmdBitfield :
    cmdBitfield env (otherSlot value deadline) now args = refused value deadline ↔
      reachesTypeCheck env .bitfield args = true := by
  cases hops : parseOps false env.maxRespRequest .wrap args with
  | error message =>
    have hmessage := untyped_parseOps false env.maxRespRequest .wrap args message hops
    simp [cmdBitfield, reachesTypeCheck, hops, hmessage, Except.toOption]
  | ok ops => simp [cmdBitfield, reachesTypeCheck, hops, bitfield_other, Except.toOption]

/-- `INCRBYFLOAT` reads its argument first. -/
theorem refuses_cmdIncrbyfloat :
    cmdIncrbyfloat env (otherSlot value deadline) now args = refused value deadline ↔
      reachesTypeCheck env .incrbyfloat args = true := by
  rcases args with _ | ⟨arg, _ | ⟨extra, args⟩⟩
  · simp [cmdIncrbyfloat, reachesTypeCheck]
  · cases hfloat : finiteFloat (argStr arg) with
    | error message =>
      have hmessage := untyped_finiteFloat (argStr arg) message hfloat
      simp [cmdIncrbyfloat, reachesTypeCheck, hfloat, hmessage, Except.toOption]
    | ok delta =>
      simp [cmdIncrbyfloat, reachesTypeCheck, hfloat, incrbyfloat, Except.toOption]
  · simp [cmdIncrbyfloat, reachesTypeCheck]

/-- **Which commands refuse a value of another type**: those that look at the type, once their
arguments have passed. -/
theorem refuses_iff (m : Mutation) (args : List Bytes) :
    Refuses env value deadline m args ↔ reachesTypeCheck env m args = true := by
  cases m with
  | append =>
    cases args with
    | nil => simp [Refuses, execute, cmdAppend, reachesTypeCheck]
    | cons bytes args =>
      simp only [Refuses, execute, cmdAppend, kvStringIsEncrypted_other, reachesTypeCheck,
        Bool.false_eq_true, if_false]
      split
      · simp
      · simp
  | getset =>
    cases args with
    | nil => simp [Refuses, execute, cmdGetset, reachesTypeCheck]
    | cons bytes args => simp [Refuses, execute, cmdGetset, reachesTypeCheck]
  | getdel =>
    cases args with
    | nil => simp [Refuses, execute, cmdGetdel, getdel, reachesTypeCheck]
    | cons arg args => simp [Refuses, execute, cmdGetdel, reachesTypeCheck]
  | setrange => exact refuses_cmdSetrange args
  | setbit => exact refuses_cmdSetbit args
  | bitfield => exact refuses_cmdBitfield args
  | incr =>
    refine (refuses_cmdIncrOne "incr" 1 args).trans ?_
    cases args <;> simp [reachesTypeCheck]
  | decr =>
    refine (refuses_cmdIncrOne "decr" (-1) args).trans ?_
    cases args <;> simp [reachesTypeCheck]
  | incrby =>
    refine (refuses_cmdIncrStep "incrby" id args).trans ?_
    cases args <;> simp [reachesTypeCheck]
  | decrby =>
    refine (refuses_cmdIncrStep "decrby" (-·) args).trans ?_
    cases args <;> simp [reachesTypeCheck]
  | incrbyfloat => exact refuses_cmdIncrbyfloat args

end Other

/-! ## The two representations -/

/-- The value as every reader sees it. -/
def Value.view : Value → StoreValue
  | .shared bytes => .str bytes
  | .growable bytes => .str bytes
  | .other value => value.1

/-- The entry as every reader sees it. -/
def Cell.view (cell : Cell) : StoreValue × Option Instant := (cell.value.view, cell.expiresAt)

/-- Two outcomes that no reader can tell apart. -/
def Agree (a b : Option Cell × Reply) : Prop :=
  a.1.map Cell.view = b.1.map Cell.view ∧ a.2 = b.2

theorem Agree.refl (a : Option Cell × Reply) : Agree a a := ⟨rfl, rfl⟩

section Strings

variable (env : Env) {now : Instant} (bytes : Bytes) (deadline : Standing now)

/-- The two representations of one string. -/
abbrev sharedSlot : Option Cell := some ⟨.shared bytes, deadline.1⟩

abbrev growableSlot : Option Cell := some ⟨.growable bytes, deadline.1⟩

/-- Whether a string is encrypted depends on its bytes alone. -/
@[simp] theorem kvStringIsEncrypted_shared :
    kvStringIsEncrypted env (sharedSlot bytes deadline) now = env.isEncryptedValue bytes := by
  simp [kvStringIsEncrypted]

@[simp] theorem kvStringIsEncrypted_growable :
    kvStringIsEncrypted env (growableSlot bytes deadline) now = env.isEncryptedValue bytes := by
  simp [kvStringIsEncrypted]

/-- The outcome is the same in both representations. -/
abbrev Same (outcome : Option Cell → Option Cell × Reply) : Prop :=
  Agree (outcome (sharedSlot bytes deadline)) (outcome (growableSlot bytes deadline))

variable {env bytes deadline}

/-- The same reply to the unchanged entry. -/
theorem agree_unchanged (reply : Reply) : Same bytes deadline fun slot => (slot, reply) :=
  ⟨rfl, rfl⟩

/-- Two runs that take the same branch agree if the branches do. -/
theorem Agree.ite {c : Prop} [Decidable c] {a a' b b' : Option Cell × Reply}
    (h : Agree a b) (h' : Agree a' b') : Agree (if c then a else a') (if c then b else b') := by
  split
  · exact h
  · exact h'

/-- Encrypted strings are refused by most commands, in the same way. -/
theorem agree_unlessEncrypted {outcome : Option Cell → Option Cell × Reply}
    (h : Same bytes deadline outcome) (reply : Reply) :
    Same bytes deadline fun slot =>
      if kvStringIsEncrypted env slot now then (slot, reply) else outcome slot := by
  simp only [Same, kvStringIsEncrypted_shared, kvStringIsEncrypted_growable]
  exact .ite (agree_unchanged reply) h

/-- The counters read either representation. -/
theorem agree_incr (delta : Int64) :
    Same bytes deadline fun slot => replied (incr slot now delta) := by
  simp only [Same, incr, live_standing, stringBytes_shared, stringBytes_growable]
  cases storedInteger bytes with
  | none => exact agree_unchanged _
  | some current =>
    cases hsum : checkedAdd current delta.toInt with
    | none =>
      simp only [hsum]
      exact agree_unchanged _
    | some n =>
      simp only [hsum]
      exact .refl _

/-- `setrange` reads either of them, and an empty value leaves both as they are. -/
theorem agree_setrange (offset : Nat) (value : Bytes) :
    Same bytes deadline fun slot => replied (setrange slot now offset value) := by
  simp only [Same, setrange, live_standing, stringBytes_shared]
  split
  · exact agree_unchanged _
  · exact .refl _

theorem agree_setbit (offset : Nat) (bit : Bool) :
    Same bytes deadline fun slot => replied (setbit slot now offset bit) := by
  simp only [Same, setbit, writable_standing, stringBytes_shared]
  exact .refl _

section

variable (args : List Bytes)

/-- `BITFIELD` on both representations, whether or not it writes. -/
theorem agree_cmdBitfield :
    Same bytes deadline fun slot => cmdBitfield env slot now args := by
  refine agree_unlessEncrypted ?_ _
  cases parseOps false env.maxRespRequest .wrap args with
  | error message => exact agree_unchanged _
  | ok ops =>
    simp only [Same, bitfield, writable_standing, live_standing, stringBytes_shared]
    cases ops.any writes with
    | true => exact .refl _
    | false => exact agree_unchanged _

/-- `APPEND` on both representations. -/
theorem agree_cmdAppend :
    Same bytes deadline fun slot => cmdAppend env slot now args := by
  cases args with
  | nil => exact agree_unchanged _
  | cons value args =>
    simp only [Same, cmdAppend, kvStringIsEncrypted_shared, kvStringIsEncrypted_growable, strlen,
      getRaw_standing, stringBytes_shared, append, live_standing]
    exact .ite (agree_unchanged _) (.ite (agree_unchanged _) (.refl _))

theorem agree_cmdGetset :
    Same bytes deadline fun slot => cmdGetset env slot now args := by
  cases args with
  | nil => exact agree_unchanged _
  | cons value args =>
    simp only [Same, cmdGetset, kvStringIsEncrypted_shared, kvStringIsEncrypted_growable, getSet,
      getRaw_standing, stringBytes_shared]
    exact .ite (agree_unchanged _) (.refl _)

theorem agree_cmdGetdel :
    Same bytes deadline fun slot => cmdGetdel env slot now args := by
  cases args with
  | nil =>
    simp only [Same, cmdGetdel, getdel, getRaw_standing, stringBytes_shared]
    exact .refl _
  | cons arg args => exact agree_unchanged _

theorem agree_cmdSetrange :
    Same bytes deadline fun slot => cmdSetrange env slot now args := by
  rcases args with _ | ⟨offsetArg, _ | ⟨value, args⟩⟩
  · exact agree_unchanged _
  · exact agree_unchanged _
  · simp only [Same, cmdSetrange, kvStringIsEncrypted_shared, kvStringIsEncrypted_growable]
    cases parseUsize (argStr offsetArg) with
    | none => exact agree_unchanged _
    | some offset =>
      exact .ite (agree_unchanged _) (.ite (agree_unchanged _) (.ite (agree_unchanged _)
        (agree_setrange offset value)))

theorem agree_cmdSetbit :
    Same bytes deadline fun slot => cmdSetbit env slot now args := by
  rcases args with _ | ⟨offsetArg, _ | ⟨bitArg, _ | ⟨extra, args⟩⟩⟩
  · exact agree_unchanged _
  · exact agree_unchanged _
  · refine agree_unlessEncrypted ?_ _
    cases setbitArgs env offsetArg bitArg with
    | error message => exact agree_unchanged _
    | ok parsed => exact agree_setbit parsed.1 parsed.2
  · exact agree_unchanged _

end

theorem agree_cmdIncrOne (name : String) (delta : Int64) (args : List Bytes) :
    Same bytes deadline fun slot => cmdIncrOne env slot now name delta args := by
  cases args with
  | nil => exact agree_unlessEncrypted (agree_incr delta) _
  | cons arg args => exact agree_unchanged _

theorem agree_cmdIncrStep (name : String) (step : Int64 → Int64) (args : List Bytes) :
    Same bytes deadline fun slot => cmdIncrStep env slot now name step args := by
  cases args with
  | nil => exact agree_unchanged _
  | cons arg args =>
    refine agree_unlessEncrypted ?_ _
    cases parseInteger arg with
    | none => exact agree_unchanged _
    | some delta => exact agree_incr (step delta)

/-- A shared string is never refused for its type. -/
theorem incrbyfloat_shared_ne (delta : F64) :
    (incrbyfloat (sharedSlot bytes deadline) now delta).2 ≠ .error wrongType := by
  have hfloat : floatErr ≠ wrongType := by decide
  have hrange : floatRangeErr ≠ wrongType := by decide
  simp only [incrbyfloat, live_standing]
  cases storedFloat bytes with
  | none => simp [hfloat]
  | some current =>
    dsimp only
    split
    · simp [hrange]
    · simp

/-- **The one command that tells them apart**: `INCRBYFLOAT` takes only a shared string for a
number. -/
theorem agree_cmdIncrbyfloat_iff (args : List Bytes) :
    (Same bytes deadline fun slot => cmdIncrbyfloat env slot now args) ↔
      ¬ (reachesTypeCheck env .incrbyfloat args = true ∧ env.isEncryptedValue bytes = false) := by
  rcases args with _ | ⟨arg, _ | ⟨extra, args⟩⟩
  · exact iff_of_true (agree_unchanged _) (by simp [reachesTypeCheck])
  · simp only [Same, cmdIncrbyfloat, kvStringIsEncrypted_shared, kvStringIsEncrypted_growable,
      reachesTypeCheck]
    cases hsealed : env.isEncryptedValue bytes with
    | true => exact iff_of_true (agree_unchanged _) (by simp)
    | false =>
      cases hfloat : finiteFloat (argStr arg) with
      | error message =>
        exact iff_of_true (agree_unchanged _) (by simp [Except.toOption])
      | ok delta =>
        refine iff_of_false ?_ (by simp [Except.toOption])
        intro hagree
        refine incrbyfloat_shared_ne delta (hagree.2.trans ?_)
        simp [incrbyfloat]
  · exact iff_of_true (agree_unchanged _) (by simp [reachesTypeCheck])

/-- **To which commands the representation matters**: to `INCRBYFLOAT` alone. -/
theorem agree_iff (m : Mutation) (args : List Bytes) :
    (Same bytes deadline fun slot => execute env slot now m args) ↔
      ¬ (m = .incrbyfloat ∧ reachesTypeCheck env m args = true ∧
        env.isEncryptedValue bytes = false) := by
  cases m with
  | append => exact iff_of_true (agree_cmdAppend args) (by simp)
  | getset => exact iff_of_true (agree_cmdGetset args) (by simp)
  | getdel => exact iff_of_true (agree_cmdGetdel args) (by simp)
  | setrange => exact iff_of_true (agree_cmdSetrange args) (by simp)
  | setbit => exact iff_of_true (agree_cmdSetbit args) (by simp)
  | bitfield => exact iff_of_true (agree_cmdBitfield args) (by simp)
  | incr => exact iff_of_true (agree_cmdIncrOne "incr" 1 args) (by simp)
  | decr => exact iff_of_true (agree_cmdIncrOne "decr" (-1) args) (by simp)
  | incrby => exact iff_of_true (agree_cmdIncrStep "incrby" id args) (by simp)
  | decrby => exact iff_of_true (agree_cmdIncrStep "decrby" (-·) args) (by simp)
  | incrbyfloat =>
    simp only [true_and]
    exact agree_cmdIncrbyfloat_iff args

end Strings

/-- **Type safety of the string commands.**  A command refuses a value of another type, unchanged,
exactly when it looks at the type and its arguments have passed; and its outcome on a string is the
same in both representations unless it is an `INCRBYFLOAT` that reads the string. -/
theorem string_commands_typed_iff (env : Env) {now : Instant} (deadline : Standing now)
    (m : Mutation) (args : List Bytes) :
    (∀ value : NonString, Refuses env value deadline m args ↔
      reachesTypeCheck env m args = true) ∧
    (∀ bytes : Bytes,
      Agree (execute env (sharedSlot bytes deadline) now m args)
        (execute env (growableSlot bytes deadline) now m args) ↔
          ¬ (m = .incrbyfloat ∧ reachesTypeCheck env m args = true ∧
            env.isEncryptedValue bytes = false)) :=
  ⟨fun _ => refuses_iff m args, fun _ => agree_iff m args⟩

/-- Nothing is encrypted. -/
def plainEnv : Env := ⟨fun _ => false, .ok, 100⟩

/-- A deadline ahead. -/
def ahead : Standing 0 := ⟨some 5, rfl⟩

/-- On a list with a deadline `INCR` refuses and `APPEND` does not; on a string with a deadline
`APPEND` does the same in both representations. -/
theorem string_commands_typed_ahead :
    Refuses plainEnv ⟨.list [[97]], rfl⟩ ahead .incr [] ∧
      ¬ Refuses plainEnv ⟨.list [[97]], rfl⟩ ahead .append [[120]] ∧
      Agree (execute plainEnv (sharedSlot [49] ahead) 0 .append [[120]])
        (execute plainEnv (growableSlot [49] ahead) 0 .append [[120]]) := by
  have happend := string_commands_typed_iff plainEnv ahead .append [[120]]
  refine ⟨?_, ?_, ?_⟩
  · exact ((string_commands_typed_iff plainEnv ahead .incr []).1 _).2 rfl
  · intro h
    cases (happend.1 _).1 h
  · refine (happend.2 _).2 fun h => ?_
    cases h.1

/-- A list with a deadline. -/
def listSlot : Option Cell := some ⟨.other ⟨.list [[97]], rfl⟩, some 5⟩

/-- `APPEND` and `GETSET` replace a list and drop its deadline, `GETDEL` answers as if there were
nothing, and `INCRBYFLOAT` refuses the string `1` when it is held in a buffer. -/
theorem string_commands_untyped :
    execute plainEnv listSlot 0 .append [[120]] = (some ⟨.shared [120], none⟩, .integer 1) ∧
      execute plainEnv listSlot 0 .getset [[120]] = (some ⟨.shared [120], none⟩, .bulk none) ∧
      execute plainEnv listSlot 0 .getdel [] = (listSlot, .bulk none) ∧
      (execute plainEnv (some ⟨.shared [49], none⟩) 0 .incrbyfloat [[49]]).2 = .bulk (some [50]) ∧
      execute plainEnv (some ⟨.growable [49], none⟩) 0 .incrbyfloat [[49]] =
        (some ⟨.growable [49], none⟩, .error wrongType) := by
  refine ⟨?_, ?_, ?_, ?_, ?_⟩
  · decide
  · decide
  · decide
  · decide
  · decide

end Lux.Strings
