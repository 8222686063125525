import Mathlib.Algebra.Order.BigOperators.Group.List
import Lux.ListWaiters

/-!
# Blocked pops and the elements of lists

Every element is somewhere: in a list, in the reply of a pop, in the slot of a client
that waits, or on its way there. The counts of each value over these places add up to
what was pushed, step by step.

The account of a client holds as long as nothing is popped for it once its wait is over,
and its wait does not end otherwise while something has been popped for it. The code
does not see to that: the channel stays open and the requests stay in the queues until
the reply has been written, and `select!` may prefer the timeout to a full slot.
-/

namespace Lux.Lists

open KeyedList Runs List ListCommand

/-! ## Counting -/

/-- Replacing one item of a list, in a sum over the list. -/
theorem sum_map_set {α : Type} (f : α → Nat) {l : List α} {i : Nat} {old : α}
    (h : l[i]? = some old) (new : α) :
    ((l.set i new).map f).sum + f old = (l.map f).sum + f new := by
  induction l generalizing i with
  | nil => simp at h
  | cons x xs ih =>
    cases i with
    | zero =>
      simp only [getElem?_cons_zero, Option.some.injEq] at h
      subst h
      simp only [set_cons_zero, map_cons, sum_cons]
      omega
    | succ i =>
      have := ih h
      simp only [set_cons_succ, map_cons, sum_cons]
      omega

/-- Sums over the values: what was under the key is replaced. -/
theorem sum_put {κ ν : Type} [BEq κ] [LawfulBEq κ] {l : List (κ × ν)}
    (h : (l.map Prod.fst).Nodup) (k : κ) (v : ν) (f : ν → Nat) :
    ((put l k v).map fun p => f p.2).sum + ((l.lookup k).map f).getD 0 =
      (l.map fun p => f p.2).sum + f v := by
  by_cases hk : (l.lookup k).isSome
  · rw [put, if_pos hk]
    induction l with
    | nil => simp at hk
    | cons p l ih =>
      obtain ⟨k', v'⟩ := p
      rw [map_cons, nodup_cons] at h
      by_cases heq : k = k'
      · subst heq
        have hrest : l.map (fun p => if p.1 == k then (k, v) else p) = l := by
          refine (map_congr_left fun p hp => ?_).trans (map_id l)
          have hne : p.1 ≠ k := fun heq => h.1 (mem_map.mpr ⟨p, hp, heq⟩)
          rw [beq_false_of_ne hne]
          rfl
        simp only [map_cons, BEq.rfl, if_true, hrest, sum_cons, lookup_cons_self,
          Option.map_some, Option.getD_some]
        omega
      · rw [lookup_cons, beq_false_of_ne heq] at hk ⊢
        have hne : (k' == k) = false := beq_false_of_ne (Ne.symm heq)
        have := ih h.2 hk
        simp only [map_cons, hne, Bool.false_eq_true, if_false, sum_cons]
        omega
  · have hnone : l.lookup k = none := Option.not_isSome_iff_eq_none.mp hk
    rw [put, hnone]
    simp

section

variable {κ ν : Type} [DecidableEq κ] [DecidableEq ν]

/-- The elements in the lists. -/
def elements (data : List (κ × Held ν)) : List ν := data.flatMap (·.2.items)

/-- How often a value is in the lists. -/
def stock (data : List (κ × Held ν)) (x : ν) : Nat := (data.map fun p => p.2.items.count x).sum

omit [DecidableEq κ] in
theorem count_elements (data : List (κ × Held ν)) (x : ν) :
    (elements data).count x = stock data x := by
  simp [elements, stock, count_flatMap, Function.comp_def]

/-- A store in which each key occurs once. -/
abbrev Keyed (data : List (κ × Held ν)) : Prop := (data.map Prod.fst).Nodup

variable {data data' : List (κ × Held ν)} {key : κ}

theorem stock_put (h : Keyed data) (key : κ) (held : Held ν) (x : ν) :
    stock (put data key held) x + (((data.lookup key).map Held.items).getD []).count x =
      stock data x + held.items.count x := by
  have hsum := sum_put h key held fun held => held.items.count x
  cases hlookup : data.lookup key with
  | none | some old => simpa [stock, hlookup] using hsum

variable {left : Bool} {x : ν}

omit [DecidableEq ν] in
theorem takeOne_eq_some {items rest : List ν} (h : takeOne left items = some (x, rest)) :
    items = if left then x :: rest else rest ++ [x] := by
  cases items with
  | nil => cases h
  | cons y ys =>
    cases left with
    | true =>
      simp only [takeOne, if_true, Option.some.injEq, Prod.mk.injEq] at h
      simp [h.1, h.2]
    | false =>
      simp only [takeOne, Bool.false_eq_true, if_false, Option.some.injEq, Prod.mk.injEq] at h
      rw [← h.1, ← h.2, if_neg Bool.false_ne_true, dropLast_append_getLast]

theorem count_takeOne {items rest : List ν} (h : takeOne left items = some (x, rest)) (y : ν) :
    items.count y = rest.count y + [x].count y := by
  rw [takeOne_eq_some h]
  cases left with
  | true => simp [count_cons]
  | false => simp

theorem count_addOne (left : Bool) (x : ν) (items : List ν) (y : ν) :
    (addOne left x items).count y = items.count y + [x].count y := by
  cases left with
  | true => simp [addOne, count_cons]
  | false => simp [addOne]

/-- A pop takes one element out of one list. -/
theorem popFrom_stock (hdata : Keyed data) (h : popFrom data key left = some (x, data')) :
    Keyed data' ∧ ∀ y, stock data y = stock data' y + [x].count y := by
  unfold popFrom at h
  split at h
  · rename_i items hlookup
    split at h
    · rename_i x' rest htake
      obtain ⟨rfl, rfl⟩ := h
      refine ⟨nodup_put hdata _ _, fun y => ?_⟩
      have hput := stock_put hdata key (.list rest) y
      have hcount := count_takeOne htake y
      simp only [hlookup, Option.map_some, Option.getD_some, Held.items] at hput
      omega
    · cases h
  · cases h

omit [DecidableEq ν] in
theorem isOther_eq_false (h : isOther data key = false) : data.lookup key ≠ some .other := by
  intro hother
  simp [isOther, hother] at h

/-- A push puts one element into one list. -/
theorem pushTo_stock (left : Bool) (x : ν) (hdata : Keyed data) (hlist : isOther data key = false) :
    Keyed (pushTo data key left x) ∧
      ∀ y, stock (pushTo data key left x) y = stock data y + [x].count y := by
  unfold pushTo
  split
  · rename_i items hlookup
    refine ⟨nodup_put hdata _ _, fun y => ?_⟩
    have hput := stock_put hdata key (.list (addOne left x items)) y
    have hcount := count_addOne left x items y
    simp only [hlookup, Option.map_some, Option.getD_some, Held.items] at hput
    omega
  · rename_i hlookup
    exact absurd hlookup (isOther_eq_false hlist)
  · rename_i hlookup
    refine ⟨nodup_put hdata _ _, fun y => ?_⟩
    have hput := stock_put hdata key (.list [x]) y
    simpa [hlookup, Held.items] using hput

omit [DecidableEq ν] in
/-- Pops and pushes leave lists where there are lists. -/
theorem isOther_put_list (items : List ν) (key' : κ) (hlist : isOther data key' = false) :
    isOther (put data key (.list items)) key' = false := by
  unfold isOther at hlist ⊢
  by_cases heq : key' = key
  · subst heq
    rw [lookup_put_self]
  · rw [lookup_put_of_ne _ _ heq]
    exact hlist

omit [DecidableEq ν] in
theorem isOther_popFrom (h : popFrom data key left = some (x, data')) {key' : κ}
    (hlist : isOther data key' = false) : isOther data' key' = false := by
  unfold popFrom at h
  split at h
  · split at h
    · simp only [Option.some.injEq, Prod.mk.injEq] at h
      rw [← h.2]
      exact isOther_put_list _ _ hlist
    · cases h
  · cases h

omit [DecidableEq ν] in
theorem isOther_pushTo (left : Bool) (x : ν) {key' : κ} (hlist : isOther data key' = false) :
    isOther (pushTo data key left x) key' = false := by
  unfold pushTo
  split
  · exact isOther_put_list _ _ hlist
  · exact hlist
  · exact isOther_put_list _ _ hlist

/-- A move keeps every element in some list. -/
theorem moveOne_stock {src dst : κ} {srcLeft dstLeft : Bool} (hdata : Keyed data)
    (h : moveOne data src dst srcLeft dstLeft = some (x, data')) :
    Keyed data' ∧ ∀ y, stock data' y = stock data y := by
  unfold moveOne at h
  split at h
  · cases h
  rename_i hlist
  split at h
  · rename_i x' popped hpop
    simp only [Option.some.injEq, Prod.mk.injEq] at h
    obtain ⟨rfl, rfl⟩ := h
    obtain ⟨hpopped, hstock⟩ := popFrom_stock hdata hpop
    have hlist' : isOther popped dst = false :=
      isOther_popFrom hpop (Bool.eq_false_iff.mpr hlist)
    obtain ⟨hpushed, hstock'⟩ := pushTo_stock dstLeft x' hpopped hlist'
    refine ⟨hpushed, fun y => ?_⟩
    have := hstock y
    have := hstock' y
    omega
  · cases h

theorem popMany_stock (key : κ) (left : Bool) (hdata : Keyed data) (count : Nat) :
    Keyed (popMany data key left count).2 ∧
      ∀ y, stock data y =
        stock (popMany data key left count).2 y + (popMany data key left count).1.count y := by
  induction count generalizing data with
  | zero => exact ⟨hdata, fun y => by simp [popMany]⟩
  | succ count ih =>
    unfold popMany
    split
    · rename_i x popped hpop
      obtain ⟨hpopped, hstock⟩ := popFrom_stock hdata hpop
      obtain ⟨hrest, hstock'⟩ := ih hpopped
      refine ⟨hrest, fun y => ?_⟩
      have := hstock y
      have := hstock' y
      have hcons : (x :: (popMany popped key left count).1).count y =
          (popMany popped key left count).1.count y + [x].count y := by
        simp [count_cons]
      simp only [hcons]
      omega
    · exact ⟨hdata, fun y => by simp⟩

theorem popFirst_stock {count : Nat} {keys : List κ} {xs : List ν} (hdata : Keyed data)
    (h : popFirst data left count keys = some (xs, data')) :
    Keyed data' ∧ ∀ y, stock data y = stock data' y + xs.count y := by
  induction keys with
  | nil => cases h
  | cons key keys ih =>
    unfold popFirst at h
    split at h
    · cases h
    · simp only [Option.some.injEq] at h
      have := popMany_stock key left hdata count
      rwa [h] at this
    · exact ih h

/-- What a command does to the counts. -/
theorem ListCommand.apply_stock (hdata : Keyed data) (command : ListCommand κ ν) :
    Keyed (command.apply data).1 ∧
      ∀ y, stock data y + (command.adds data).count y =
        stock (command.apply data).1 y + (command.apply data).2.count y := by
  cases command with
  | push key values left =>
    by_cases hother : isOther data key = true
    · simp [apply, adds, hother, hdata]
    simp only [apply, adds, hother, Bool.false_eq_true, if_false]
    have hlist : isOther data key = false := Bool.eq_false_iff.mpr hother
    clear hother
    induction values generalizing data with
    | nil => exact ⟨hdata, fun y => by simp⟩
    | cons x values ih =>
      obtain ⟨hpushed, hstock⟩ := pushTo_stock left x hdata hlist
      obtain ⟨hrest, hstock'⟩ := ih hpushed (isOther_pushTo left x hlist)
      refine ⟨hrest, fun y => ?_⟩
      have := hstock y
      have := hstock' y
      have hcons : (x :: values).count y = values.count y + [x].count y := by
        simp [count_cons]
      simp only [foldl_cons]
      omega
  | pop keys left count =>
    cases hpop : popFirst data left count keys with
    | none => simp [apply, adds, hpop, hdata]
    | some popped =>
      simpa [apply, adds, hpop] using popFirst_stock hdata hpop
  | move src dst srcLeft dstLeft =>
    cases hmove : moveOne data src dst srcLeft dstLeft with
    | none => simp [apply, adds, hmove, hdata]
    | some moved =>
      obtain ⟨hkeyed, hstock⟩ := moveOne_stock hdata hmove
      simp [apply, adds, hmove, hkeyed, hstock]

theorem runCommands_stock (argStr : κ → κ) (hdata : Keyed data)
    (commands : List (ListCommand κ ν)) :
    Keyed (runCommands argStr data commands).data ∧
      ∀ y, stock data y + (runCommands argStr data commands).adds.count y =
        stock (runCommands argStr data commands).data y +
          (runCommands argStr data commands).hands.count y := by
  induction commands generalizing data with
  | nil => exact ⟨hdata, fun y => by simp [runCommands]⟩
  | cons command commands ih =>
    obtain ⟨hkeyed, hstock⟩ := command.apply_stock hdata
    obtain ⟨hkeyed', hstock'⟩ := ih hkeyed
    refine ⟨hkeyed', fun y => ?_⟩
    have := hstock y
    have := hstock' y
    simp only [runCommands, count_append]
    omega

/-- What is done for a request: a pop takes an element out, a move keeps it. -/
theorem attempt_stock {w : Waiter κ} (hdata : Keyed data)
    (h : attempt data key w = some (x, data')) :
    Keyed data' ∧ ∀ y, stock data y =
      stock data' y + if w.destination.isNone then [x].count y else 0 := by
  unfold attempt at h
  split at h
  · rename_i hdestination
    simpa [hdestination] using popFrom_stock hdata h
  · rename_i hdestination
    obtain ⟨hkeyed, hstock⟩ := moveOne_stock hdata h
    exact ⟨hkeyed, fun y => by simp [hdestination, hstock y]⟩

end

/-! ## Accounts -/

section

variable {κ ν : Type}

/-- The request a drain holds. -/
def DrainStage.waiter? : DrainStage κ ν → Option (Waiter κ)
  | .take => none
  | .reserve w => some w
  | .commit w => some w
  | .send w _ => some w
  | .putBack w _ => some w
  | .release w => some w

/-- A drain that has popped an element for the client and not yet sent it. -/
def Frame.sends (id : Nat) (frame : Frame κ ν) : Nat :=
  match frame.stage with
  | .send w _ => if w.waiterId = id then 1 else 0
  | _ => 0

/-- A drain that holds the permit of the client's channel. -/
def Frame.permits (id : Nat) (frame : Frame κ ν) : Nat :=
  match frame.stage with
  | .commit w => if w.waiterId = id then 1 else 0
  | .send w _ => if w.waiterId = id then 1 else 0
  | .putBack w true => if w.waiterId = id then 1 else 0
  | .release w => if w.waiterId = id then 1 else 0
  | _ => 0

/-- A popped element on its way to a client. An element that was moved is in a list. -/
def Frame.carries [DecidableEq ν] (x : ν) (frame : Frame κ ν) : Nat :=
  match frame.stage with
  | .send w y => if w.destination.isNone then [y].count x else 0
  | _ => 0

open Lists.Frame

/-- A sum over the calls of all waking threads. -/
def frameSum (f : Frame κ ν → Nat) (s : State κ ν) : Nat :=
  (s.processes.map fun process => (process.frames.map f).sum).sum

/-- A popped element in the slot of a client. -/
def Client.holds [DecidableEq ν] (x : ν) (c : Client κ ν) : Nat :=
  if c.destination.isNone then c.slot.toList.count x else 0

/-- What is taken for a client by the outcome of its wait. -/
def Outcome.elements : Outcome ν → Nat
  | .received _ => 1
  | .timedOut => 0
  | .disconnected => 0

def Phase.outcome? : Phase κ ν → Option (Outcome ν)
  | .registering _ => none
  | .waiting => none
  | .ended outcome => some outcome
  | .unregistered outcome => some outcome
  | .closed outcome => some outcome

/-- The account of a client, given the drains that hold its permit and those that send
to it. -/
structure Account (c : Client κ ν) (permits sends : Nat) : Prop where
  exclusive : c.slot.toList.length + permits ≤ 1
  permit : c.permit = false → permits = 0
  waits : c.phase.outcome? = none → c.taken = c.slot.toList.length + sends
  ended : ∀ outcome, c.phase.outcome? = some outcome →
    c.slot = none ∧ sends = 0 ∧ c.taken = outcome.elements

/-- The request is one of a client, of its kind. -/
def Known (s : State κ ν) (w : Waiter κ) : Prop :=
  ∃ c, s.clients[w.waiterId]? = some c ∧ c.destination = w.destination

/-- What the counts are in every state. -/
structure Balanced [DecidableEq κ] [DecidableEq ν] (s : State κ ν) : Prop where
  keyed : Keyed s.data
  queued : ∀ key, ∀ w ∈ queueAt s.queues key, Known s w
  held : ∀ process ∈ s.processes, ∀ frame ∈ process.frames, ∀ w, frame.stage.waiter? = some w →
    Known s w
  balance : ∀ x, s.pushed.count x = stock s.data x + s.handed.count x +
    (s.clients.map (·.holds x)).sum + frameSum (Frame.carries x) s
  accounts : ∀ id c, s.clients[id]? = some c →
    Account c (frameSum (Frame.permits id) s) (frameSum (Frame.sends id) s)

theorem Frame.sends_le_permits (id : Nat) (frame : Frame κ ν) :
    frame.sends id ≤ frame.permits id := by
  unfold sends permits
  split <;> simp_all

theorem sends_le_permits (id : Nat) (s : State κ ν) :
    frameSum (sends id) s ≤ frameSum (permits id) s :=
  sum_le_sum fun _ _ => sum_le_sum fun frame _ => frame.sends_le_permits id

variable (f : Frame κ ν → Nat) {s s' : State κ ν}

/-- A drain goes from one stage to another: the sums change by its call. -/
theorem frameSum_setProcess {p : Nat} {todo : List κ}
    {frames : List (Frame κ ν)} (hp : s.processes[p]? = some ⟨todo, frames⟩)
    {todo' : List κ} {frames' : List (Frame κ ν)}
    (hs' : s'.processes = s.processes.set p ⟨todo', frames'⟩) :
    frameSum f s' + (frames.map f).sum = frameSum f s + (frames'.map f).sum := by
  rw [frameSum, hs']
  exact sum_map_set (fun process : Process κ ν => (process.frames.map f).sum) hp ⟨todo', frames'⟩

/-- The same for its innermost call. -/
theorem frameSum_top {p : Nat} {todo todo' : List κ}
    {key : κ} {stage : DrainStage κ ν} {top below : List (Frame κ ν)}
    (hp : s.processes[p]? = some ⟨todo, ⟨key, stage⟩ :: below⟩)
    (hs' : s'.processes = s.processes.set p ⟨todo', top ++ below⟩) :
    frameSum f s' + f ⟨key, stage⟩ = frameSum f s + (top.map f).sum := by
  have hsum := frameSum_setProcess f hp hs'
  simp only [map_cons, sum_cons, map_append, sum_append] at hsum
  omega

theorem frameSum_append {todo : List κ}
    (hs' : s'.processes = s.processes ++ [⟨todo, []⟩]) : frameSum f s' = frameSum f s := by
  simp [frameSum, hs']

/-- Drains that are about to take a request weigh nothing. -/
theorem sum_take_eq_zero {f : Frame κ ν → Nat} (hf : ∀ k, f ⟨k, .take⟩ = 0)
    {frames : List (Frame κ ν)} (hframes : ∀ frame ∈ frames, frame.stage = .take) :
    (frames.map f).sum = 0 := by
  rw [List.sum_eq_zero_iff_forall_eq_nat]
  intro n hn
  obtain ⟨⟨k, stage⟩, hframe, rfl⟩ := mem_map.mp hn
  cases hframes _ hframe
  exact hf k

variable [DecidableEq κ] [DecidableEq ν] {s s' : State κ ν}

/-- A step that changes no client. -/
theorem Balanced.of_same (hs : Balanced s) (hkeyed : Keyed s'.data)
    (hclients : s'.clients = s.clients)
    (hqueued : ∀ key, ∀ w ∈ queueAt s'.queues key, Known s w)
    (hheld : ∀ process ∈ s'.processes, ∀ frame ∈ process.frames, ∀ w,
      frame.stage.waiter? = some w → Known s w)
    (hpermits : ∀ id, frameSum (permits id) s' = frameSum (permits id) s)
    (hsends : ∀ id, frameSum (sends id) s' = frameSum (sends id) s)
    (hbalance : ∀ x, s'.pushed.count x +
        (stock s.data x + s.handed.count x + frameSum (carries x) s) =
      s.pushed.count x +
        (stock s'.data x + s'.handed.count x + frameSum (carries x) s')) :
    Balanced s' := by
  have hknown : ∀ w, Known s w → Known s' w := by
    rintro w ⟨c, hc, hdestination⟩
    exact ⟨c, by rw [hclients]; exact hc, hdestination⟩
  refine ⟨hkeyed, fun key w hw => hknown w (hqueued key w hw),
    fun process hprocess frame hframe w hw => hknown w (hheld process hprocess frame hframe w hw),
    ?_, ?_⟩
  · intro x
    have := hbalance x
    have := hs.balance x
    rw [hclients]
    omega
  · intro id c hc
    rw [hclients] at hc
    rw [hpermits, hsends]
    exact hs.accounts id c hc

/-- A step that changes one client. -/
theorem Balanced.of_client (hs : Balanced s) {id : Nat} {c c' : Client κ ν}
    (hc : s.clients[id]? = some c) (hdestination : c'.destination = c.destination)
    (hclients : s'.clients = s.clients.set id c') (hkeyed : Keyed s'.data)
    (hqueued : ∀ key, ∀ w ∈ queueAt s'.queues key, Known s w)
    (hheld : ∀ process ∈ s'.processes, ∀ frame ∈ process.frames, ∀ w,
      frame.stage.waiter? = some w → Known s w)
    (hbalance : ∀ x, s'.pushed.count x +
        (stock s.data x + s.handed.count x + c.holds x + frameSum (carries x) s) =
      s.pushed.count x +
        (stock s'.data x + s'.handed.count x + c'.holds x + frameSum (carries x) s'))
    (hothers : ∀ id', id' ≠ id →
      frameSum (permits id') s' = frameSum (permits id') s ∧
        frameSum (sends id') s' = frameSum (sends id') s)
    (haccount : Account c' (frameSum (permits id) s') (frameSum (sends id) s')) :
    Balanced s' := by
  have hlt : id < s.clients.length := (List.getElem?_eq_some_iff.mp hc).1
  have hself : (s.clients.set id c')[id]? = some c' := getElem?_set_self hlt
  have hknown : ∀ w, Known s w → Known s' w := by
    rintro w ⟨d, hd, hdest⟩
    by_cases hid : w.waiterId = id
    · refine ⟨c', by rw [hclients, hid]; exact hself, ?_⟩
      rw [hid, hc] at hd
      cases hd
      exact hdestination.trans hdest
    · exact ⟨d, by rw [hclients, getElem?_set_ne (Ne.symm hid)]; exact hd, hdest⟩
  refine ⟨hkeyed, fun key w hw => hknown w (hqueued key w hw),
    fun process hprocess frame hframe w hw => hknown w (hheld process hprocess frame hframe w hw),
    ?_, ?_⟩
  · intro x
    have hsum := sum_map_set (fun c : Client κ ν => c.holds x) hc c'
    have := hs.balance x
    have := hbalance x
    rw [hclients]
    omega
  · intro id' d hd
    by_cases hid : id' = id
    · subst hid
      rw [hclients, hself] at hd
      cases hd
      exact haccount
    · rw [hclients, getElem?_set_ne (Ne.symm hid)] at hd
      rw [(hothers id' hid).1, (hothers id' hid).2]
      exact hs.accounts id' d hd

/-! ## The steps of a waking thread -/

variable {p : Nat} {todo : List κ} {key : κ} {below : List (Frame κ ν)} {stage : DrainStage κ ν}
  {w : Waiter κ} (hs : Balanced s)
include hs

section

variable (hp : s.processes[p]? = some ⟨todo, ⟨key, stage⟩ :: below⟩)
include hp

/-- What the drain's own request is known as. -/
theorem Balanced.known_of_top (hw : stage.waiter? = some w) : Known s w :=
  hs.held _ (mem_of_getElem? hp) _ mem_cons_self w hw

/-- After a drain has changed its innermost calls all requests are still known. -/
theorem Balanced.held_set {todo' : List κ} {top : List (Frame κ ν)}
    (htop : ∀ frame ∈ top, ∀ w, frame.stage.waiter? = some w → Known s w) :
    ∀ process ∈ s.processes.set p ⟨todo', top ++ below⟩, ∀ frame ∈ process.frames, ∀ w,
      frame.stage.waiter? = some w → Known s w := by
  intro process hprocess frame hframe w hw
  rcases mem_or_eq_of_mem_set hprocess with hold | rfl
  · exact hs.held process hold frame hframe w hw
  · rcases mem_append.mp hframe with hframe | hframe
    · exact htop frame hframe w hw
    · exact hs.held _ (mem_of_getElem? hp) frame (mem_cons_of_mem _ hframe) w hw

/-- A drain changes its innermost calls and nothing that counts. -/
theorem Balanced.of_frames (top : List (Frame κ ν))
    (hprocesses : s'.processes = s.processes.set p ⟨todo, top ++ below⟩) (hdata : s'.data = s.data)
    (hclients : s'.clients = s.clients) (hpushed : s'.pushed = s.pushed)
    (hhanded : s'.handed = s.handed) (hqueued : ∀ k, ∀ w ∈ queueAt s'.queues k, Known s w)
    (htop : ∀ frame ∈ top, ∀ w, frame.stage.waiter? = some w → Known s w)
    (hpermits : ∀ id, (top.map (permits id)).sum = permits id ⟨key, stage⟩)
    (hsends : ∀ id, (top.map (sends id)).sum = sends id ⟨key, stage⟩)
    (hcarries : ∀ x, (top.map (carries x)).sum = carries x ⟨key, stage⟩) :
    Balanced s' := by
  have hsum : ∀ f : Frame κ ν → Nat, (top.map f).sum = f ⟨key, stage⟩ →
      frameSum f s' = frameSum f s := by
    intro f hf
    have := frameSum_top f hp hprocesses
    omega
  refine hs.of_same (hdata ▸ hs.keyed) hclients hqueued (hprocesses ▸ hs.held_set hp htop)
    (fun id => hsum _ (hpermits id)) (fun id => hsum _ (hsends id)) fun x => ?_
  rw [hdata, hpushed, hhanded, hsum _ (hcarries x)]

/-- A drain changes its innermost call, and the client of its request. -/
theorem Balanced.of_frame_client {c c' : Client κ ν} (hw : stage.waiter? = some w)
    (hc : s.clients[w.waiterId]? = some c) (top : List (Frame κ ν))
    (hprocesses : s'.processes = s.processes.set p ⟨todo, top ++ below⟩)
    (hclients : s'.clients = s.clients.set w.waiterId c')
    (hdestination : c'.destination = c.destination) (hqueues : s'.queues = s.queues)
    (hpushed : s'.pushed = s.pushed) (hhanded : s'.handed = s.handed) (hkeyed : Keyed s'.data)
    (htop : ∀ frame ∈ top, ∀ v, frame.stage.waiter? = some v → v = w)
    (hbalance : ∀ x, stock s.data x + c.holds x + carries x ⟨key, stage⟩ =
      stock s'.data x + c'.holds x + (top.map (carries x)).sum)
    (hothers : ∀ id, id ≠ w.waiterId →
      (top.map (permits id)).sum = permits id ⟨key, stage⟩ ∧
        (top.map (sends id)).sum = sends id ⟨key, stage⟩)
    (haccount : ∀ permits sends,
      permits + Frame.permits w.waiterId ⟨key, stage⟩ =
        frameSum (Frame.permits w.waiterId) s + (top.map (Frame.permits w.waiterId)).sum →
      sends + Frame.sends w.waiterId ⟨key, stage⟩ =
        frameSum (Frame.sends w.waiterId) s + (top.map (Frame.sends w.waiterId)).sum →
      Account c' permits sends) : Balanced s' := by
  have hsum := fun f => frameSum_top f hp hprocesses
  refine hs.of_client hc hdestination hclients hkeyed (hqueues ▸ hs.queued)
    (hprocesses ▸ hs.held_set hp fun frame hframe v hv =>
      htop frame hframe v hv ▸ hs.known_of_top hp hw)
    ?_ ?_ (haccount _ _ (hsum _) (hsum _))
  · intro x
    rw [hpushed, hhanded]
    have := hbalance x
    have := hsum (carries x)
    omega
  · intro id hid
    obtain ⟨hpermits, hsends⟩ := hothers id hid
    have := hsum (permits id)
    have := hsum (sends id)
    omega

end

theorem balanced_take
    (hp : s.processes[p]? = some ⟨todo, ⟨key, .take⟩ :: below⟩) (journal : Journal) :
    Balanced (drainStep s p todo key below journal .take) := by
  simp only [drainStep]
  split
  · exact hs.of_frames hp [] rfl rfl rfl rfl rfl hs.queued (by simp)
      (by simp [permits]) (by simp [sends]) (by simp [carries])
  · rename_i w queue hqueue
    have hmem : ∀ v ∈ w :: queue, Known s v := fun v hv => hs.queued key v (hqueue ▸ hv)
    refine hs.of_frames hp [⟨key, .reserve w⟩] rfl rfl rfl rfl rfl ?_ ?_
      (by simp [permits]) (by simp [sends]) (by simp [carries])
    · intro k v hv
      rcases mem_queueAt_setQueue hv with hv | hv
      · exact hmem v (mem_cons_of_mem _ hv)
      · exact hs.queued k v hv
    · rw [forall_mem_singleton]
      rintro v ⟨⟩
      exact hmem w mem_cons_self

theorem balanced_reserve
    (hp : s.processes[p]? = some ⟨todo, ⟨key, .reserve w⟩ :: below⟩) (journal : Journal) :
    Balanced (drainStep s p todo key below journal (.reserve w)) := by
  have hknown := hs.known_of_top hp rfl
  have htake : Balanced (setProcess s p ⟨todo, ⟨key, .take⟩ :: below⟩) :=
    hs.of_frames hp [⟨key, .take⟩] rfl rfl rfl rfl rfl hs.queued
      (by simp [DrainStage.waiter?]) (by simp [permits]) (by simp [sends])
      (by simp [carries])
  obtain ⟨c, hc, -⟩ := hknown
  simp only [drainStep, hc]
  split
  · exact htake
  split
  · refine hs.of_frames hp [⟨key, .putBack w false⟩] rfl rfl rfl rfl rfl hs.queued ?_
      (by simp [permits]) (by simp [sends]) (by simp [carries])
    rw [forall_mem_singleton]
    rintro v ⟨⟩
    exact hs.known_of_top hp rfl
  · rename_i hfree
    simp only [Bool.or_eq_true, not_or, Bool.not_eq_true, Option.isSome_eq_false_iff,
      Option.isNone_iff_eq_none] at hfree
    obtain ⟨hslot, hpermit⟩ := hfree
    have haccount := hs.accounts w.waiterId c hc
    have hzero := haccount.permit hpermit
    refine hs.of_frame_client hp rfl hc [⟨key, .commit w⟩] rfl rfl rfl rfl rfl rfl
      hs.keyed (by simp [DrainStage.waiter?])
      (by simp [carries, Client.holds, setClient, setProcess]) ?_ ?_
    · intro id hid
      simp [permits, sends, Ne.symm hid]
    · intro permits sends hpermits hsends
      simp only [Frame.permits, Frame.sends, map_singleton, sum_singleton, if_true,
        Nat.add_zero] at hpermits hsends
      refine ⟨by simp [hslot]; omega, by simp, ?_, ?_⟩
      · intro hphase
        rw [hsends]
        exact haccount.waits hphase
      · intro outcome hphase
        rw [hsends]
        exact haccount.ended outcome hphase

theorem balanced_putBack {permitted : Bool}
    (hp : s.processes[p]? = some ⟨todo, ⟨key, .putBack w permitted⟩ :: below⟩) (journal : Journal) :
    Balanced (drainStep s p todo key below journal (.putBack w permitted)) := by
  have hknown := hs.known_of_top hp rfl
  have hqueued : ∀ k, ∀ v ∈ queueAt (setQueue s.queues key (w :: queueAt s.queues key)) k,
      Known s v := by
    intro k v hv
    rcases mem_queueAt_setQueue hv with hv | hv
    · rcases mem_cons.mp hv with rfl | hv
      · exact hknown
      · exact hs.queued key v hv
    · exact hs.queued k v hv
  cases permitted with
  | true =>
    refine hs.of_frames hp [⟨key, .release w⟩] rfl rfl rfl rfl rfl hqueued ?_
      (by simp [permits]) (by simp [sends]) (by simp [carries])
    rw [forall_mem_singleton]
    rintro v ⟨⟩
    exact hknown
  | false =>
    exact hs.of_frames hp [] rfl rfl rfl rfl rfl hqueued (by simp)
      (by simp [permits]) (by simp [sends]) (by simp [carries])

theorem balanced_release
    (hp : s.processes[p]? = some ⟨todo, ⟨key, .release w⟩ :: below⟩) (journal : Journal) :
    Balanced (drainStep s p todo key below journal (.release w)) := by
  obtain ⟨c, hc, -⟩ := hs.known_of_top hp rfl
  have haccount := hs.accounts w.waiterId c hc
  have hexclusive := haccount.exclusive
  simp only [drainStep, hc]
  refine hs.of_frame_client hp rfl hc [] rfl rfl rfl rfl rfl rfl
    hs.keyed (by simp) (by simp [carries, Client.holds, setClient, setProcess]) ?_ ?_
  · intro id hid
    simp [permits, sends, Ne.symm hid]
  · intro permits sends hpermits hsends
    simp only [Frame.permits, Frame.sends, map_nil, sum_nil, if_true,
      Nat.add_zero] at hpermits hsends
    refine ⟨by simp only; omega, fun _ => by omega, ?_, ?_⟩
    · intro hphase
      rw [hsends]
      exact haccount.waits hphase
    · intro outcome hphase
      rw [hsends]
      exact haccount.ended outcome hphase

/-- **The commit.**  The element is popped for a client that still waits. -/
theorem balanced_commit {journal : Journal}
    (hp : s.processes[p]? = some ⟨todo, ⟨key, .commit w⟩ :: below⟩)
    (hopen : (attempt s.data key w).isSome = true → journal = .rejected ∨
      journal = .committed ∧ ∀ c, s.clients[w.waiterId]? = some c → c.isOpen = true) :
    Balanced (drainStep s p todo key below journal (.commit w)) := by
  have hback : Balanced (setProcess s p ⟨todo, ⟨key, .putBack w true⟩ :: below⟩) := by
    refine hs.of_frames hp [⟨key, .putBack w true⟩] rfl rfl rfl rfl rfl hs.queued ?_
      (by simp [permits]) (by simp [sends]) (by simp [carries])
    rw [forall_mem_singleton]
    rintro v ⟨⟩
    exact hs.known_of_top hp rfl
  obtain ⟨c, hc, hdestination⟩ := hs.known_of_top hp rfl
  cases hattempt : attempt s.data key w with
  | none =>
    simp only [drainStep, hattempt]
    exact hback
  | some popped =>
    obtain ⟨x, data⟩ := popped
    rcases hopen (by simp [hattempt]) with rfl | ⟨rfl, hclient⟩
    · simp only [drainStep, hattempt]
      exact hback
    · simp only [drainStep, hattempt, hc]
      obtain ⟨hkeyed, hstock⟩ := attempt_stock hs.keyed hattempt
      have haccount := hs.accounts w.waiterId c hc
      have hexclusive := haccount.exclusive
      have hphase : c.phase.outcome? = none := by
        have := hclient c hc
        unfold Client.isOpen at this
        split at this <;> simp_all [Phase.outcome?]
      refine hs.of_frame_client hp rfl hc [⟨key, .send w x⟩] rfl rfl rfl rfl rfl rfl
        hkeyed (by simp [DrainStage.waiter?]) ?_ ?_ ?_
      · intro y
        simp only [carries, Client.holds, map_singleton, sum_singleton]
        have := hstock y
        omega
      · intro id hid
        simp [permits, sends, Ne.symm hid]
      · intro permits sends hpermits hsends
        simp only [Frame.permits, Frame.sends, map_singleton, sum_singleton,
          if_true] at hpermits hsends
        have hwaits := haccount.waits hphase
        refine ⟨by simp only; omega, fun hpermit => ?_, fun _ => by simp only; omega, ?_⟩
        · have := haccount.permit hpermit
          omega
        · intro outcome hover
          rw [show Phase.outcome? c.phase = some outcome from hover] at hphase
          cases hphase

/-- **The delivery.**  What was popped for a client comes to its slot. -/
theorem balanced_send {x : ν}
    (hp : s.processes[p]? = some ⟨todo, ⟨key, .send w x⟩ :: below⟩) (journal : Journal) :
    Balanced (drainStep s p todo key below journal (.send w x)) := by
  obtain ⟨c, hc, hdestination⟩ := hs.known_of_top hp rfl
  have haccount := hs.accounts w.waiterId c hc
  have hexclusive := haccount.exclusive
  -- The drain itself is one that sends, so the client still waits.
  have hsum : ∀ f : Frame κ ν → Nat, f ⟨key, .send w x⟩ ≤ frameSum f s := by
    intro f
    have hremoved : frameSum f (setProcess s p ⟨todo, below⟩) + _ = frameSum f s + _ :=
      frameSum_setProcess f hp rfl
    simp only [map_cons, sum_cons] at hremoved
    omega
  have hsends := hsum (sends w.waiterId)
  have hpermits := hsum (permits w.waiterId)
  simp only [sends, permits, if_true] at hsends hpermits
  have hphase : c.phase.outcome? = none := by
    cases hover : c.phase.outcome? with
    | none => rfl
    | some outcome =>
      have := (haccount.ended outcome hover).2.1
      omega
  have hclosed : c.isClosed = false := by
    unfold Client.isClosed
    split
    · rename_i outcome hclosed
      simp [hclosed, Phase.outcome?] at hphase
    · rfl
  have hslot : c.slot = none := by
    cases hslot : c.slot with
    | none => rfl
    | some y =>
      rw [hslot] at hexclusive
      simp only [Option.toList_some, length_singleton] at hexclusive
      omega
  have hwaits := haccount.waits hphase
  have hframes : ∀ top : List (Frame κ ν), (∀ frame ∈ top, frame.stage = .take) →
      Balanced (setClient (setProcess s p ⟨todo, top ++ below⟩) w.waiterId
        { c with permit := false, slot := if c.isClosed then none else some x }) := by
    intro top htop
    have hp0 : ∀ id, (top.map (permits id)).sum = 0 :=
      fun id => sum_take_eq_zero (fun _ => rfl) htop
    have hs0 : ∀ id, (top.map (sends id)).sum = 0 :=
      fun id => sum_take_eq_zero (fun _ => rfl) htop
    refine hs.of_frame_client hp rfl hc top rfl rfl rfl rfl rfl rfl hs.keyed ?_ ?_ ?_ ?_
    · intro frame hframe v hv
      rw [htop frame hframe] at hv
      cases hv
    · intro y
      rw [sum_take_eq_zero (fun _ => rfl) htop]
      simp [carries, Client.holds, hslot, hclosed, hdestination, setClient, setProcess]
    · intro id hid
      rw [hp0, hs0]
      simp [permits, sends, Ne.symm hid]
    · intro permits sends hpermits' hsends'
      rw [hp0] at hpermits'
      rw [hs0] at hsends'
      simp only [Frame.permits, Frame.sends, if_true] at hpermits' hsends'
      refine ⟨?_, fun _ => by omega, ?_, ?_⟩
      · simp only [hclosed, Bool.false_eq_true, if_false, Option.toList_some, length_singleton]
        omega
      · simp only [hclosed, Bool.false_eq_true, if_false, Option.toList_some, length_singleton]
        omega
      · intro outcome hover
        rw [show Phase.outcome? c.phase = some outcome from hover] at hphase
        cases hphase
  simp only [drainStep, hc]
  split
  · split
    · exact hframes [⟨_, .take⟩, ⟨key, .take⟩] (by simp)
    · exact hframes [⟨key, .take⟩] (by simp)
  · exact hframes [⟨key, .take⟩] (by simp)

end

end Lux.Lists
