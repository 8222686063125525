import Mathlib.Algebra.Order.Ring.Nat
import Mathlib.Data.List.Dedup
import Lux.KeyedList
import Lux.Runs

/-!
# Clients blocked on lists

A client that finds its lists empty registers a request in the queue of each of its
keys and sleeps on a channel with one slot. A command that pushes looks afterwards for
waiting clients and serves them in its own thread: it takes the first request of the
queue, reserves the slot, pops the list through the journal and sends the element. The
queues, the channels and the journaled list operations are each atomic; everything
between them interleaves with the other commands, and with the sleeping client, which
wakes by its slot, its timeout or its connection and only then takes its requests out of
the queues.

Keys and elements are any types. The lists lie under the keys themselves, the queues under
what `arg_str` makes of them: `argStr` gives it as a key again, the one under which a waking
thread then looks for a list. A reply may be lost after its command: it is over the limit of
the output and an error is written in its place, or the connection fails. Deadlines of keys,
the encryption of elements and the limits on blocked clients are left out.
-/

namespace Lux.Lists

open KeyedList

/-- A value of the store. -/
inductive Held (ν : Type) where
  | list (items : List ν)
  | other
  deriving DecidableEq, Repr

def Held.items {ν : Type} : Held ν → List ν
  | .list items => items
  | .other => []

/-- `BlockedPopRequest`, with the number of its channel. `ticket` is a ghost: the
number of the registration. -/
structure Waiter (κ : Type) where
  waiterId : Nat
  popLeft : Bool
  destination : Option (κ × Bool)
  ticket : Nat
  deriving DecidableEq, Repr

/-- How a wait ended. -/
inductive Outcome (ν : Type) where
  | received (element : ν)
  | timedOut
  | disconnected
  deriving DecidableEq, Repr

/-- Where a blocked client stands. -/
inductive Phase (κ ν : Type) where
  /-- The keys it has still to register on. -/
  | registering (rest : List κ)
  | waiting
  /-- `select!` is over, the registrations are still there. -/
  | ended (outcome : Outcome ν)
  /-- The registrations are removed, the channel is still open. -/
  | unregistered (outcome : Outcome ν)
  | closed (outcome : Outcome ν)
  deriving DecidableEq, Repr

/-- A blocked client with its channel. The keys are those of its command. `taken` is a
ghost: how many elements have been popped or moved for it. -/
structure Client (κ ν : Type) where
  keys : List κ
  popLeft : Bool
  destination : Option (κ × Bool)
  slot : Option ν
  permit : Bool
  phase : Phase κ ν
  taken : Nat
  deriving DecidableEq, Repr

/-- The receiver has been dropped. -/
def Client.isClosed {κ ν : Type} (c : Client κ ν) : Bool :=
  match c.phase with
  | .closed _ => true
  | _ => false

/-- The client will still look into its slot. -/
def Client.isOpen {κ ν : Type} (c : Client κ ν) : Bool :=
  match c.phase with
  | .registering _ => true
  | .waiting => true
  | _ => false

/-- Where `drain_list_waiters` stands with a key. -/
inductive DrainStage (κ ν : Type) where
  | take
  | reserve (w : Waiter κ)
  | commit (w : Waiter κ)
  | send (w : Waiter κ) (element : ν)
  /-- The request goes back to the front of the queue, with or without a permit. -/
  | putBack (w : Waiter κ) (permitted : Bool)
  | release (w : Waiter κ)
  deriving DecidableEq, Repr

structure Frame (κ ν : Type) where
  key : κ
  stage : DrainStage κ ν
  deriving DecidableEq, Repr

/-- A thread that wakes: the keys it has still to look at and its calls, the innermost
first. -/
structure Process (κ ν : Type) where
  todo : List κ
  frames : List (Frame κ ν)
  deriving DecidableEq, Repr

/-- The server. The rest are ghosts: the elements that were pushed, those that clients
got as replies of pops, the registrations so far, and the key and registration of each
request that was served, the latest first. -/
structure State (κ ν : Type) where
  data : List (κ × Held ν)
  queues : List (κ × List (Waiter κ))
  clients : List (Client κ ν)
  processes : List (Process κ ν)
  pushed : List ν
  handed : List ν
  tickets : Nat
  served : List (κ × Nat)
  deriving DecidableEq, Repr

section

variable {κ ν : Type} [DecidableEq κ]

/-! ## Lists -/

def takeOne (left : Bool) : List ν → Option (ν × List ν)
  | [] => none
  | x :: xs => if left then some (x, xs) else some ((x :: xs).getLast (by simp), (x :: xs).dropLast)

def addOne (left : Bool) (x : ν) (xs : List ν) : List ν := if left then x :: xs else xs ++ [x]

/-- `lpop`, `rpop`: an empty list stays in its place. -/
def popFrom (data : List (κ × Held ν)) (key : κ) (left : Bool) : Option (ν × List (κ × Held ν)) :=
  match data.lookup key with
  | some (.list items) =>
    match takeOne left items with
    | some (x, rest) => some (x, put data key (.list rest))
    | none => none
  | _ => none

/-- `lpush`, `rpush` of one element. -/
def pushTo (data : List (κ × Held ν)) (key : κ) (left : Bool) (x : ν) : List (κ × Held ν) :=
  match data.lookup key with
  | some (.list items) => put data key (.list (addOne left x items))
  | some .other => data
  | none => put data key (.list [x])

def isOther (data : List (κ × Held ν)) (key : κ) : Bool :=
  match data.lookup key with
  | some .other => true
  | _ => false

/-- `preview_lmove` and `lmove`. -/
def moveOne (data : List (κ × Held ν)) (src dst : κ) (srcLeft dstLeft : Bool) :
    Option (ν × List (κ × Held ν)) :=
  if isOther data dst then none
  else
    match popFrom data src srcLeft with
    | some (x, data') => some (x, pushTo data' dst dstLeft x)
    | none => none

/-- What is done for a request: a pop, or a move. -/
def attempt (data : List (κ × Held ν)) (key : κ) (w : Waiter κ) : Option (ν × List (κ × Held ν)) :=
  match w.destination with
  | none => popFrom data key w.popLeft
  | some (dst, left) => moveOne data key dst w.popLeft left

/-- Up to `count` pops. -/
def popMany (data : List (κ × Held ν)) (key : κ) (left : Bool) :
    Nat → List ν × List (κ × Held ν)
  | 0 => ([], data)
  | count + 1 =>
    match popFrom data key left with
    | some (x, data') =>
      let (xs, data'') := popMany data' key left count
      (x :: xs, data'')
    | none => ([], data)

/-- `lmpop`: the first key with a non-empty list; a value of another type stops the
search. -/
def popFirst (data : List (κ × Held ν)) (left : Bool) (count : Nat) :
    List κ → Option (List ν × List (κ × Held ν))
  | [] => none
  | key :: keys =>
    match data.lookup key with
    | some .other => none
    | some (.list (_ :: _)) => some (popMany data key left count)
    | _ => popFirst data left count keys

/-! ## Queues -/

def queueAt (queues : List (κ × List (Waiter κ))) (key : κ) : List (Waiter κ) :=
  (queues.lookup key).getD []

/-- Empty queues are removed. -/
def setQueue (queues : List (κ × List (Waiter κ))) (key : κ) (queue : List (Waiter κ)) :
    List (κ × List (Waiter κ)) :=
  if queue.isEmpty then erase queues key else put queues key queue

section

variable (queues : List (κ × List (Waiter κ)))

/-- `list_waiter_count`, which is kept under the lock of the queues. -/
def waiterCount : Nat := (queues.map (·.2.length)).sum

def hasListWaiters : Bool := 0 < waiterCount queues

/-- `remove_list_waiters_by_id`. -/
def removeWaiters (keys : List κ) (waiterId : Nat) : List (κ × List (Waiter κ)) :=
  keys.foldl
    (fun qs key => setQueue qs key ((queueAt qs key).filter (·.waiterId ≠ waiterId))) queues

@[simp] theorem queueAt_setQueue_self (key : κ) (queue : List (Waiter κ)) :
    queueAt (setQueue queues key queue) key = queue := by
  unfold queueAt setQueue
  split
  · rename_i hempty
    rw [lookup_erase_self, List.isEmpty_iff.mp hempty]
    rfl
  · rw [lookup_put_self]
    rfl

theorem queueAt_setQueue_of_ne {key key' : κ} (queue : List (Waiter κ)) (h : key' ≠ key) :
    queueAt (setQueue queues key queue) key' = queueAt queues key' := by
  unfold queueAt setQueue
  split
  · rw [lookup_erase_of_ne _ h]
  · rw [lookup_put_of_ne _ _ h]

/-- What is in a queue after one was set. -/
theorem mem_queueAt_setQueue {queues : List (κ × List (Waiter κ))} {key key' : κ}
    {queue : List (Waiter κ)} {w : Waiter κ} (h : w ∈ queueAt (setQueue queues key queue) key') :
    w ∈ queue ∨ w ∈ queueAt queues key' := by
  by_cases heq : key' = key
  · subst heq
    rw [queueAt_setQueue_self] at h
    exact .inl h
  · rw [queueAt_setQueue_of_ne _ _ heq] at h
    exact .inr h

/-- Removing the requests of one client leaves those of the others in their order. -/
theorem queueAt_removeWaiters (keys : List κ) (waiterId : Nat) (key : κ) :
    (queueAt (removeWaiters queues keys waiterId) key).Sublist (queueAt queues key) := by
  induction keys generalizing queues with
  | nil => exact List.Sublist.refl _
  | cons k keys ih =>
    refine (ih _).trans ?_
    by_cases heq : key = k
    · subst heq
      rw [queueAt_setQueue_self]
      exact List.filter_sublist
    · rw [queueAt_setQueue_of_ne _ _ heq]

/-- Without waiters all queues are empty. -/
theorem queueAt_eq_nil {queues : List (κ × List (Waiter κ))} (h : hasListWaiters queues = false)
    (key : κ) : queueAt queues key = [] := by
  have hzero : waiterCount queues = 0 := by simpa [hasListWaiters] using h
  unfold queueAt
  cases hlookup : queues.lookup key with
  | none => rfl
  | some queue =>
    exact List.length_eq_zero_iff.mp (List.sum_eq_zero_iff_forall_eq_nat.mp hzero _
      (List.mem_map.mpr ⟨(key, queue), mem_of_lookup hlookup, rfl⟩))

end

/-! ## Steps -/

/-- What becomes of a journaled operation: it is committed; the append fails and nothing
is applied; or the journal is found poisoned by another thread after it was applied. -/
inductive Journal where
  | committed
  | rejected
  | poisoned
  deriving DecidableEq, Repr

/-- What becomes of a reply: its client gets it, or an error in its place, or nothing. -/
inductive Reply where
  | delivered
  | withheld
  deriving DecidableEq, Repr

/-- The elements of a reply that its client gets. -/
def Reply.gives (xs : List ν) : Reply → List ν
  | .delivered => xs
  | .withheld => []

def setProcess (s : State κ ν) (p : Nat) (process : Process κ ν) : State κ ν :=
  { s with processes := s.processes.set p process }

def setClient (s : State κ ν) (id : Nat) (c : Client κ ν) : State κ ν :=
  { s with clients := s.clients.set id c }

/-- One pass of the loop of `drain_list_waiters`, cut at its locks. -/
def drainStep (s : State κ ν) (p : Nat) (todo : List κ) (key : κ)
    (below : List (Frame κ ν)) (journal : Journal) : DrainStage κ ν → State κ ν
  | .take =>
    match queueAt s.queues key with
    | [] => setProcess s p ⟨todo, below⟩
    | w :: queue =>
      { setProcess s p ⟨todo, ⟨key, .reserve w⟩ :: below⟩ with
        queues := setQueue s.queues key queue }
  | .reserve w =>
    match s.clients[w.waiterId]? with
    | none => setProcess s p ⟨todo, ⟨key, .take⟩ :: below⟩
    | some c =>
      if c.isClosed then setProcess s p ⟨todo, ⟨key, .take⟩ :: below⟩
      else if c.slot.isSome || c.permit then
        setProcess s p ⟨todo, ⟨key, .putBack w false⟩ :: below⟩
      else
        setClient (setProcess s p ⟨todo, ⟨key, .commit w⟩ :: below⟩) w.waiterId
          { c with permit := true }
  | .commit w =>
    match attempt s.data key w, journal with
    | none, _ => setProcess s p ⟨todo, ⟨key, .putBack w true⟩ :: below⟩
    | some _, .rejected => setProcess s p ⟨todo, ⟨key, .putBack w true⟩ :: below⟩
    | some (_, data), .poisoned =>
      { setProcess s p ⟨todo, ⟨key, .putBack w true⟩ :: below⟩ with data := data }
    | some (x, data), .committed =>
      match s.clients[w.waiterId]? with
      | none => s
      | some c =>
        { setClient (setProcess s p ⟨todo, ⟨key, .send w x⟩ :: below⟩) w.waiterId
            { c with taken := c.taken + 1 } with
          data := data
          served := (key, w.ticket) :: s.served }
  | .send w x =>
    -- A closed channel drops what is sent.
    let frames : List (Frame κ ν) :=
      match w.destination with
      | some (dst, _) =>
        if dst ≠ key ∧ hasListWaiters s.queues = true then
          ⟨dst, .take⟩ :: ⟨key, .take⟩ :: below
        else ⟨key, .take⟩ :: below
      | none => ⟨key, .take⟩ :: below
    match s.clients[w.waiterId]? with
    | none => s
    | some c =>
      setClient (setProcess s p ⟨todo, frames⟩) w.waiterId
        { c with permit := false, slot := if c.isClosed then none else some x }
  | .putBack w permitted =>
    let frames := if permitted then ⟨key, .release w⟩ :: below else below
    { setProcess s p ⟨todo, frames⟩ with
      queues := setQueue s.queues key (w :: queueAt s.queues key) }
  | .release w =>
    match s.clients[w.waiterId]? with
    | none => s
    | some c => setClient (setProcess s p ⟨todo, below⟩) w.waiterId { c with permit := false }

/-- The next step of a waking thread. -/
def advance (s : State κ ν) (p : Nat) (journal : Journal) : State κ ν :=
  match s.processes[p]? with
  | none => s
  | some ⟨todo, ⟨key, stage⟩ :: below⟩ => drainStep s p todo key below journal stage
  | some ⟨key :: todo, []⟩ =>
    if hasListWaiters s.queues then setProcess s p ⟨todo, [⟨key, .take⟩]⟩
    else setProcess s p ⟨todo, []⟩
  | some ⟨[], []⟩ => s

/-- The commands of a transaction that are about lists. -/
inductive ListCommand (κ ν : Type) where
  /-- `LPUSH`, `RPUSH`; a value of another type is an error. -/
  | push (key : κ) (values : List ν) (left : Bool)
  /-- `LPOP`, `RPOP`, `LMPOP`, and each attempt of `BLMPOP`. -/
  | pop (keys : List κ) (left : Bool) (count : Nat)
  /-- `LMOVE`, `RPOPLPUSH`. -/
  | move (src dst : κ) (srcLeft dstLeft : Bool)
  deriving DecidableEq, Repr

/-- The command on the store, with the elements of its reply that leave the lists. -/
def ListCommand.apply (data : List (κ × Held ν)) : ListCommand κ ν → List (κ × Held ν) × List ν
  | .push key values left =>
    if isOther data key then (data, [])
    else (values.foldl (fun data x => pushTo data key left x) data, [])
  | .pop keys left count =>
    match popFirst data left count keys with
    | some (xs, data') => (data', xs)
    | none => (data, [])
  | .move src dst srcLeft dstLeft =>
    match moveOne data src dst srcLeft dstLeft with
    | some (_, data') => (data', [])
    | none => (data, [])

/-- The elements a command adds. -/
def ListCommand.adds (data : List (κ × Held ν)) : ListCommand κ ν → List ν
  | .push key values _ => if isOther data key then [] else values
  | _ => []

section

variable (argStr : κ → κ)

/-- The queue whose waiters a command wakes. -/
def ListCommand.wakes (data : List (κ × Held ν)) : ListCommand κ ν → List κ
  | .push key _ _ => if isOther data key then [] else [argStr key]
  | _ => []

/-- A command, with the elements it adds and hands out and the queues it wakes. -/
structure Effect (κ ν : Type) where
  data : List (κ × Held ν)
  adds : List ν
  hands : List ν
  wakes : List κ

def runCommands (data : List (κ × Held ν)) : List (ListCommand κ ν) → Effect κ ν
  | [] => ⟨data, [], [], []⟩
  | command :: rest =>
    let (data', hands) := command.apply data
    let effect := runCommands data' rest
    ⟨effect.data, command.adds data ++ effect.adds, hands ++ effect.hands,
      command.wakes argStr data ++ effect.wakes⟩

end

inductive ListOp (κ ν : Type) where
  | command (command : ListCommand κ ν) (journal : Journal) (reply : Reply := .delivered)
  /-- A transaction. Its wake-ups come when it is complete, each queue once, in the order
  of the keys. -/
  | exec (commands : List (ListCommand κ ν)) (wake : List κ) (journal : Journal)
    (reply : Reply := .delivered)
  /-- `BLPOP`, `BRPOP`, `BLMOVE`, `BRPOPLPUSH` up to the decision to block. -/
  | block (keys : List κ) (popLeft : Bool) (destination : Option (κ × Bool)) (journal : Journal)
    (reply : Reply := .delivered)
  | register (id : Nat)
  /-- `select!` takes the element out of the slot; the reply is written from it. -/
  | receive (id : Nat) (reply : Reply := .delivered)
  | timeout (id : Nat)
  | disconnect (id : Nat)
  | unregister (id : Nat)
  | close (id : Nat)
  /-- The future of an embedded call is dropped: the channel is closed and nobody takes
  the requests out of the queues. -/
  | abandon (id : Nat)
  /-- A waking thread makes its next step. -/
  | advance (p : Nat) (journal : Journal)
  deriving DecidableEq, Repr

/-- What a blocking command does before it blocks. -/
def firstAttempt (s : State κ ν) (keys : List κ) (popLeft : Bool)
    (destination : Option (κ × Bool)) : Option (List ν × List (κ × Held ν)) :=
  match destination, keys with
  | none, keys => popFirst s.data popLeft 1 keys
  | some (dst, left), [src] => (moveOne s.data src dst popLeft left).map fun r => ([], r.2)
  | some _, _ => none

/-- The keys of a blocking command that hold a value of another type. -/
def blockError (s : State κ ν) (keys : List κ) (destination : Option (κ × Bool)) : Bool :=
  keys.any (isOther s.data ·) || destination.any fun d => isOther s.data d.1

/-- `select!` is over. -/
def endWait (s : State κ ν) (id : Nat) (outcome : Outcome ν) : State κ ν :=
  match s.clients[id]? with
  | some c =>
    match c.phase with
    | .waiting => setClient s id { c with phase := .ended outcome }
    | _ => s
  | none => s

/-- Journaled commands. If the append is refused nothing happens; if the journal is
poisoned the store has changed, the reply is an error and nobody is woken. -/
def perform (s : State κ ν) (effect : Effect κ ν) (wake : List κ) (reply : Reply) :
    Journal → State κ ν
  | .committed =>
    { s with
      data := effect.data
      pushed := effect.adds ++ s.pushed
      handed := reply.gives effect.hands ++ s.handed
      processes := if wake.isEmpty then s.processes else s.processes ++ [⟨wake, []⟩] }
  | .poisoned => { s with data := effect.data, pushed := effect.adds ++ s.pushed }
  | .rejected => s

def listStep (argStr : κ → κ) (s : State κ ν) : ListOp κ ν → State κ ν
  | .command command journal reply =>
    let effect := runCommands argStr s.data [command]
    perform s effect effect.wakes reply journal
  | .exec commands wake journal reply =>
    let effect := runCommands argStr s.data commands
    if wake.isPerm effect.wakes.dedup then perform s effect wake reply journal else s
  | .block keys popLeft destination journal reply =>
    match firstAttempt s keys popLeft destination, journal with
    | some (xs, data), .committed =>
      { s with data := data, handed := reply.gives xs ++ s.handed }
    | some (_, data), .poisoned => { s with data := data }
    | some _, .rejected => s
    | none, _ =>
      if blockError s keys destination then s
      else
        { s with
          clients := s.clients ++
            [⟨keys, popLeft, destination.map fun d => (argStr d.1, d.2), none, false,
              .registering keys, 0⟩] }
  | .register id =>
    match s.clients[id]? with
    | some c =>
      match c.phase with
      | .registering (key :: rest) =>
        { setClient s id { c with phase := .registering rest } with
          queues := setQueue s.queues (argStr key)
            (queueAt s.queues (argStr key) ++ [⟨id, c.popLeft, c.destination, s.tickets⟩])
          tickets := s.tickets + 1 }
      | .registering [] => setClient s id { c with phase := .waiting }
      | _ => s
    | none => s
  | .receive id reply =>
    match s.clients[id]? with
    | some c =>
      match c.phase, c.slot with
      | .waiting, some x =>
        { setClient s id { c with phase := .ended (.received x), slot := none } with
          handed := if c.destination.isNone then reply.gives [x] ++ s.handed else s.handed }
      | _, _ => s
    | none => s
  | .timeout id => endWait s id .timedOut
  | .disconnect id => endWait s id .disconnected
  | .unregister id =>
    match s.clients[id]? with
    | some c =>
      match c.phase with
      | .ended outcome =>
        { setClient s id { c with phase := .unregistered outcome } with
          queues := removeWaiters s.queues (c.keys.map argStr) id }
      | _ => s
    | none => s
  | .close id =>
    match s.clients[id]? with
    | some c =>
      match c.phase with
      | .unregistered outcome => setClient s id { c with phase := .closed outcome, slot := none }
      | _ => s
    | none => s
  | .abandon id =>
    match s.clients[id]? with
    | some c =>
      match c.phase with
      | .waiting => setClient s id { c with phase := .closed .disconnected, slot := none }
      | _ => s
    | none => s
  | .advance p journal => advance s p journal

end

end Lux.Lists
