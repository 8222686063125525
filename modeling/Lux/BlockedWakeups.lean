import Lux.BlockedPops
import Lux.Readers

/-!
# Clients that sleep beside data

A list with elements and a queue of waiting clients belong together only while some
thread is on its way to the queue. `Awake` says so for every key: whoever fills a list
on which somebody waits is, or starts, such a thread. `InOrder` follows the numbers of
the registrations through the queues, the waking threads and the log of served requests.

The code keeps this up for pushes, but a client registers after it has looked at the
list, several commands fill a list and wake nobody, and a waking thread that meets a
client with a full slot or a failing journal gives up on the whole queue. The queues lie
under `arg_str` of the keys, so all keys that are no text share one, and its waking threads
look at the list of the empty key. `Attentive` excludes these steps.
-/

namespace Lux.Lists

open KeyedList Runs List Lists.Frame

section

variable {κ ν : Type} [DecidableEq κ] {argStr : κ → κ}

/-- The key holds a list with elements. -/
def filled (data : List (κ × Held ν)) (key : κ) : Bool :=
  match data.lookup key with
  | some (.list (_ :: _)) => true
  | _ => false

/-! ## Other commands -/

/-- What can happen next: the list operations, and every other command that replaces or
removes values (`RENAME`, `RESTORE`, `COPY`, `LINSERT`, `LTRIM`, `DEL`, `SORT`, an
expiry). -/
inductive Op (κ ν : Type) where
  | list (op : ListOp κ ν)
  | overwrite (changes : List (κ × Option (Held ν)))
  deriving DecidableEq, Repr

def applyChanges (data : List (κ × Held ν)) (changes : List (κ × Option (Held ν))) :
    List (κ × Held ν) :=
  changes.foldl
    (fun data change =>
      match change.2 with
      | some held => put data change.1 held
      | none => erase data change.1) data

def opStep (argStr : κ → κ) (s : State κ ν) : Op κ ν → State κ ν
  | .list op => listStep argStr s op
  | .overwrite changes => { s with data := applyChanges s.data changes }

/-! ## Who attends to a key -/

/-- A drain that will look at the queue of the key again. -/
def Frame.wakes (key : κ) (frame : Frame κ ν) : Bool :=
  match frame.stage with
  | .release _ => false
  | .send w _ => frame.key = key || w.destination.any (·.1 = key)
  | _ => frame.key = key

def Process.attends (key : κ) (process : Process κ ν) : Bool :=
  process.todo.contains key || process.frames.any (·.wakes key)

def Agent (s : State κ ν) (key : κ) : Prop := ∃ process ∈ s.processes, process.attends key = true

/-- Where a client waits on a list with elements, some thread attends to the key. -/
def Awake (s : State κ ν) : Prop :=
  ∀ key, filled s.data key = true → queueAt s.queues key ≠ [] → Agent s key

variable {s s' : State κ ν}

/-- A step keeps this up if it leaves attended what it fills and what was attended. -/
theorem Awake.step (h : Awake s)
    (hfilled : ∀ key, filled s'.data key = true → queueAt s'.queues key ≠ [] →
      filled s.data key = true ∧ queueAt s.queues key ≠ [] ∨ Agent s' key)
    (hagent : ∀ key, Agent s key → filled s'.data key = true → queueAt s'.queues key ≠ [] →
      Agent s' key) : Awake s' := by
  intro key hkey hqueue
  rcases hfilled key hkey hqueue with ⟨hkey', hqueue'⟩ | hnew
  · exact hagent key (h key hkey' hqueue') hkey hqueue
  · exact hnew

variable {old new : Process κ ν} {journal : Journal} {data' : List (κ × Held ν)} {wake : List κ}
  {x : ν}

theorem Agent.of_set {p : Nat} (hp : s.processes[p]? = some old)
    (hs' : s'.processes = s.processes.set p new) {key : κ} (h : new.attends key = true) :
    Agent s' key := by
  have hlt : p < s.processes.length := (List.getElem?_eq_some_iff.mp hp).1
  refine ⟨new, ?_, h⟩
  rw [hs']
  exact mem_of_getElem? (getElem?_set_self hlt)

/-- A thread makes a step. -/
theorem Agent.set {p : Nat} (hp : s.processes[p]? = some old)
    (hs' : s'.processes = s.processes.set p new) {key : κ} (h : Agent s key)
    (hold : old.attends key = true → new.attends key = true) : Agent s' key := by
  obtain ⟨process, hprocess, hattends⟩ := h
  obtain ⟨i, hi⟩ := mem_iff_getElem?.mp hprocess
  by_cases hip : i = p
  · rw [hip, hp] at hi
    cases hi
    exact .of_set hp hs' (hold hattends)
  · refine ⟨process, ?_, hattends⟩
    rw [hs']
    exact mem_of_getElem? ((getElem?_set_ne (Ne.symm hip)).trans hi)

/-- A step of the queues and clients that adds no request where there are elements. -/
theorem Awake.of_queues (h : Awake s) (hdata : s'.data = s.data)
    (hprocesses : s'.processes = s.processes)
    (hqueues : ∀ key, filled s.data key = true → queueAt s'.queues key ≠ [] →
      queueAt s.queues key ≠ []) : Awake s' := by
  intro key hkey hqueue
  rw [hdata] at hkey
  obtain ⟨process, hprocess, hattends⟩ := h key hkey (hqueues key hkey hqueue)
  exact ⟨process, hprocesses ▸ hprocess, hattends⟩

theorem Awake.of_client (h : Awake s) (id : Nat) (c : Client κ ν) : Awake (setClient s id c) :=
  h.of_queues rfl rfl fun _ _ hqueue => hqueue

/-! ## What fills a list -/

variable {data : List (κ × Held ν)} {key key' : κ}

theorem ne_of_filled (hempty : filled data key = false)
    (h : filled data key' = true) : key' ≠ key := by
  rintro rfl
  rw [hempty] at h
  cases h

theorem filled_put {items : List ν} (h : filled (put data key (.list items)) key' = true) :
    filled data key' = true ∨ key' = key ∧ items ≠ [] := by
  by_cases heq : key' = key
  · subst heq
    unfold filled at h
    rw [lookup_put_self] at h
    refine .inr ⟨rfl, ?_⟩
    rintro rfl
    cases h
  · unfold filled at h ⊢
    rw [lookup_put_of_ne _ _ heq] at h
    exact .inl h

theorem filled_popFrom {left : Bool}
    (hpop : popFrom data key left = some (x, data')) (h : filled data' key' = true) :
    filled data key' = true := by
  unfold popFrom at hpop
  split at hpop
  · rename_i items hlookup
    split at hpop
    · rename_i x' rest htake
      simp only [Option.some.injEq, Prod.mk.injEq] at hpop
      rw [← hpop.2] at h
      rcases filled_put h with h | ⟨rfl, -⟩
      · exact h
      -- A list that gave an element had one.
      unfold filled
      rw [hlookup]
      cases items with
      | nil => cases htake
      | cons y ys => rfl
    · cases hpop
  · cases hpop

theorem filled_pushTo {left : Bool}
    (h : filled (pushTo data key left x) key' = true) : filled data key' = true ∨ key' = key := by
  unfold pushTo at h
  split at h
  · rcases filled_put h with h | h
    · exact .inl h
    · exact .inr h.1
  · exact .inl h
  · rcases filled_put h with h | h
    · exact .inl h
    · exact .inr h.1

variable {w : Waiter κ}

/-- A request fills at most the destination of its move. -/
theorem filled_attempt
    (hattempt : attempt data key w = some (x, data')) (h : filled data' key' = true) :
    filled data key' = true ∨ w.destination.any (·.1 = key') = true := by
  unfold attempt at hattempt
  split at hattempt
  · exact .inl (filled_popFrom hattempt h)
  rename_i dst left hdestination
  unfold moveOne at hattempt
  split at hattempt
  · cases hattempt
  split at hattempt
  · rename_i x' popped hpop
    simp only [Option.some.injEq, Prod.mk.injEq] at hattempt
    rw [← hattempt.2] at h
    rcases filled_pushTo h with h | rfl
    · exact .inl (filled_popFrom hpop h)
    · exact .inr (by simp [hdestination])
  · cases hattempt

/-- No key on which somebody waits is filled without being woken. -/
def quietly (s : State κ ν) (data : List (κ × Held ν)) (wake : List κ) : Bool :=
  s.queues.all fun p => p.2.isEmpty || !filled data p.1 || filled s.data p.1 || wake.contains p.1

theorem of_quietly (h : quietly s data wake = true) {key : κ}
    (hqueue : queueAt s.queues key ≠ []) (hfilled : filled data key = true) :
    filled s.data key = true ∨ key ∈ wake := by
  unfold queueAt at hqueue
  cases hlookup : s.queues.lookup key with
  | none => simp [hlookup] at hqueue
  | some queue =>
    rw [hlookup, Option.getD_some] at hqueue
    have hall := all_eq_true.mp h (key, queue) (mem_of_lookup hlookup)
    simpa [hqueue, hfilled] using hall

/-- A step of the lists only. -/
theorem Awake.of_data (h : Awake s) (hqueues : s'.queues = s.queues)
    (hquietly : quietly s s'.data wake = true)
    (hkept : ∀ process ∈ s.processes, process ∈ s'.processes)
    (hwake : ∀ key ∈ wake, Agent s' key) : Awake s' := by
  refine h.step ?_ ?_
  · intro key hkey hqueue
    rw [hqueues] at hqueue
    rcases of_quietly hquietly hqueue hkey with hold | hwoken
    · exact .inl ⟨hold, hqueue⟩
    · exact .inr (hwake key hwoken)
  · rintro key ⟨process, hprocess, hattends⟩ - -
    exact ⟨process, hkept process hprocess, hattends⟩

/-! ## The steps of a waking thread -/

variable {p : Nat} {todo : List κ} {key : κ} {below : List (Frame κ ν)}

/-- A thread makes a step; what it has attended to so far it attends to further, or it
need not. -/
theorem Awake.of_process (h : Awake s) (hp : s.processes[p]? = some old)
    (hs' : s'.processes = s.processes.set p new)
    (hfilled : ∀ k, filled s'.data k = true → queueAt s'.queues k ≠ [] →
      filled s.data k = true ∧ queueAt s.queues k ≠ [] ∨ new.attends k = true)
    (hold : ∀ k, old.attends k = true → filled s'.data k = true → queueAt s'.queues k ≠ [] →
      new.attends k = true) : Awake s' := by
  refine h.step ?_ fun k hagent hk hqueue => hagent.set hp hs' fun ho => hold k ho hk hqueue
  intro k hk hqueue
  rcases hfilled k hk hqueue with hk | hnew
  · exact .inl hk
  · exact .inr (.of_set hp hs' hnew)

variable {stage : DrainStage κ ν}

/-- A thread changes its innermost call, and no list or queue. -/
theorem Awake.of_frames (h : Awake s) (hp : s.processes[p]? = some ⟨todo, ⟨key, stage⟩ :: below⟩)
    (top : List (Frame κ ν)) (hs' : s'.processes = s.processes.set p ⟨todo, top ++ below⟩)
    (hdata : s'.data = s.data) (hqueues : s'.queues = s.queues)
    (hwakes : ∀ k, filled s.data k = true → queueAt s.queues k ≠ [] →
      wakes k ⟨key, stage⟩ = true → top.any (·.wakes k) = true) : Awake s' := by
  refine h.of_process hp hs' (fun k hk hqueue => ?_) ?_
  · rw [hdata] at hk
    rw [hqueues] at hqueue
    exact .inl ⟨hk, hqueue⟩
  · intro k hold hk hqueue
    rw [hdata] at hk
    rw [hqueues] at hqueue
    simp only [Process.attends, any_cons, Bool.or_eq_true, any_append] at hold ⊢
    rcases hold with hold | hold | hold
    · exact .inl hold
    · exact .inr (.inl (hwakes k hk hqueue hold))
    · exact .inr (.inr hold)

theorem awake_take (h : Awake s) (hp : s.processes[p]? = some ⟨todo, ⟨key, .take⟩ :: below⟩)
    (journal : Journal) : Awake (drainStep s p todo key below journal .take) := by
  simp only [drainStep]
  split
  · rename_i hempty
    refine h.of_frames hp [] rfl rfl rfl fun k _ hqueue hwakes => ?_
    have heq : key = k := by simpa [wakes] using hwakes
    exact absurd hempty (heq ▸ hqueue)
  · rename_i w queue hqueue
    refine h.of_process hp rfl (fun k hk hqueue' => .inl ⟨hk, ?_⟩) ?_
    · by_cases heq : k = key
      · rw [heq, hqueue]
        simp
      · rwa [queueAt_setQueue_of_ne _ _ heq] at hqueue'
    · intro k hold _ _
      simpa [Process.attends, wakes] using hold

theorem awake_reserve (h : Awake s) (hp : s.processes[p]? = some ⟨todo, ⟨key, .reserve w⟩ :: below⟩)
    (journal : Journal) : Awake (drainStep s p todo key below journal (.reserve w)) := by
  have hkeeps : ∀ stage : DrainStage κ ν, (∀ k, wakes k (⟨key, stage⟩ : Frame κ ν) =
      wakes k (⟨key, .reserve w⟩ : Frame κ ν)) →
      Awake (setProcess s p ⟨todo, ⟨key, stage⟩ :: below⟩) := by
    intro stage hstage
    refine h.of_frames hp [⟨key, stage⟩] rfl rfl rfl fun k _ _ hwakes => ?_
    simpa [hstage k] using hwakes
  simp only [drainStep]
  split
  · exact hkeeps .take fun _ => rfl
  split
  · exact hkeeps .take fun _ => rfl
  · split
    · exact hkeeps (.putBack w false) fun _ => rfl
    · exact (hkeeps (.commit w) fun _ => rfl).of_client _ _

/-- A committed move attends to its destination until it has looked there. -/
theorem awake_commit (h : Awake s)
    (hp : s.processes[p]? = some ⟨todo, ⟨key, .commit w⟩ :: below⟩)
    (hpoisoned : journal = .poisoned → ∀ x data, attempt s.data key w = some (x, data) →
      quietly s data [] = true) : Awake (drainStep s p todo key below journal (.commit w)) := by
  have hback : Awake (setProcess s p ⟨todo, ⟨key, .putBack w true⟩ :: below⟩) := by
    refine h.of_frames hp [⟨key, .putBack w true⟩] rfl rfl rfl fun k _ _ hwakes => ?_
    simpa [wakes] using hwakes
  simp only [drainStep]
  split
  · exact hback
  · exact hback
  · rename_i x data hattempt
    exact hback.of_data rfl (hpoisoned rfl _ _ hattempt) (fun _ hprocess => hprocess) (by simp)
  · rename_i x data hattempt
    split
    · exact h
    refine h.of_process hp rfl ?_ ?_
    · intro k hk hqueue
      rcases filled_attempt hattempt hk with hold | hdestination
      · exact .inl ⟨hold, hqueue⟩
      · exact .inr (by simp [Process.attends, wakes, hdestination])
    · intro k hold _ _
      simp only [Process.attends, any_cons, wakes, Bool.or_eq_true] at hold ⊢
      rcases hold with hold | hold | hold
      · exact .inl hold
      · exact .inr (.inl (.inl hold))
      · exact .inr (.inr hold)

theorem awake_send (h : Awake s)
    (hp : s.processes[p]? = some ⟨todo, ⟨key, .send w x⟩ :: below⟩) (journal : Journal) :
    Awake (drainStep s p todo key below journal (.send w x)) := by
  simp only [drainStep]
  split
  · exact h
  split
  · rename_i dst left hdestination
    split
    · refine h.of_frames hp [⟨dst, .take⟩, ⟨key, .take⟩] rfl rfl rfl ?_
      intro k _ _ hwakes
      simp only [wakes, hdestination, Option.any_some, Bool.or_eq_true,
        decide_eq_true_eq] at hwakes
      simp only [wakes, any_cons, Bool.or_eq_true, decide_eq_true_eq]
      tauto
    · rename_i hskip
      refine h.of_frames hp [⟨key, .take⟩] rfl rfl rfl ?_
      intro k _ hqueue hwakes
      -- The destination is the key itself, or nobody waits anywhere.
      simp only [wakes, hdestination, Option.any_some, Bool.or_eq_true,
        decide_eq_true_eq] at hwakes
      simp only [wakes, any_cons, Bool.or_eq_true, decide_eq_true_eq]
      rcases hwakes with hwakes | hwakes
      · exact .inl hwakes
      by_cases heq : dst = key
      · exact .inl (heq ▸ hwakes)
      · have hnone : hasListWaiters s.queues = false := by
          by_contra hsome
          exact hskip ⟨heq, Bool.eq_true_of_not_eq_false hsome⟩
        exact absurd (queueAt_eq_nil hnone k) hqueue
  · rename_i hdestination
    refine h.of_frames hp [⟨key, .take⟩] rfl rfl rfl ?_
    simp [wakes, hdestination]

theorem awake_putBack (h : Awake s) {permitted : Bool}
    (hp : s.processes[p]? = some ⟨todo, ⟨key, .putBack w permitted⟩ :: below⟩)
    (hempty : filled s.data key = false) (journal : Journal) :
    Awake (drainStep s p todo key below journal (.putBack w permitted)) := by
  simp only [drainStep]
  refine h.of_process hp rfl ?_ ?_
  · intro k hk hqueue
    rw [queueAt_setQueue_of_ne _ _ (ne_of_filled hempty hk)] at hqueue
    exact .inl ⟨hk, hqueue⟩
  · intro k hold hk _
    have hne := (ne_of_filled hempty hk).symm
    simp only [Process.attends, any_cons, wakes, Bool.or_eq_true, hne, decide_false,
      Bool.false_eq_true, false_or] at hold ⊢
    rcases hold with hold | hold
    · exact .inl hold
    · refine .inr ?_
      split
      · simp [hold]
      · exact hold

theorem awake_release (h : Awake s) (hp : s.processes[p]? = some ⟨todo, ⟨key, .release w⟩ :: below⟩)
    (journal : Journal) : Awake (drainStep s p todo key below journal (.release w)) := by
  simp only [drainStep]
  split
  · exact h
  · exact h.of_frames hp [] rfl rfl rfl fun k _ _ hwakes => by simp [wakes] at hwakes

/-! ## The order of service -/

/-- The request a drain has taken out of the queue and may put back. -/
def Frame.kept? (frame : Frame κ ν) : Option (Waiter κ) :=
  match frame.stage with
  | .reserve w => some w
  | .commit w => some w
  | .putBack w _ => some w
  | _ => none

def Frame.keeps (key : κ) (frame : Frame κ ν) : Nat :=
  if frame.kept?.isSome ∧ frame.key = key then 1 else 0

/-- Requests are numbered in the order of their registration. On every key the queue is
in that order, the request a thread keeps comes before it, and what was served comes
before both. -/
structure InOrder (s : State κ ν) : Prop where
  queue : ∀ key, (queueAt s.queues key).Pairwise (·.ticket < ·.ticket)
  queued : ∀ key, ∀ w ∈ queueAt s.queues key, w.ticket < s.tickets
  kept : ∀ process ∈ s.processes, ∀ frame ∈ process.frames, ∀ w, frame.kept? = some w →
    w.ticket < s.tickets ∧ (∀ v ∈ queueAt s.queues frame.key, w.ticket < v.ticket) ∧
      ∀ t, (frame.key, t) ∈ s.served → t < w.ticket
  single : ∀ key, frameSum (Frame.keeps key) s ≤ 1
  served : ∀ key t, (key, t) ∈ s.served → t < s.tickets ∧ ∀ w ∈ queueAt s.queues key, t < w.ticket
  log : ∀ key, ((s.served.filter (·.1 = key)).map Prod.snd).Pairwise (· > ·)

/-- A step that registers and serves nobody. -/
theorem InOrder.of_sublist (h : InOrder s)
    (hqueues : ∀ k, (queueAt s'.queues k).Sublist (queueAt s.queues k))
    (htickets : s'.tickets = s.tickets) (hserved : s'.served = s.served)
    (hkept : ∀ process ∈ s'.processes, ∀ frame ∈ process.frames, ∀ w, frame.kept? = some w →
      ∃ process' ∈ s.processes, ∃ frame' ∈ process'.frames, frame'.key = frame.key ∧
        frame'.kept? = some w)
    (hsingle : ∀ k, frameSum (keeps k) s' ≤ frameSum (keeps k) s) : InOrder s' := by
  refine ⟨fun k => (h.queue k).sublist (hqueues k), ?_, ?_, fun k => (hsingle k).trans (h.single k),
    ?_, hserved ▸ h.log⟩
  · intro k w hw
    rw [htickets]
    exact h.queued k w ((hqueues k).subset hw)
  · intro process hprocess frame hframe w hw
    obtain ⟨process', hprocess', frame', hframe', hkey, hw'⟩ :=
      hkept process hprocess frame hframe w hw
    obtain ⟨hlt, hfirst, hlast⟩ := h.kept process' hprocess' frame' hframe' w hw'
    rw [hkey] at hfirst hlast
    rw [htickets, hserved]
    exact ⟨hlt, fun v hv => hfirst v ((hqueues _).subset hv), hlast⟩
  · intro k t ht
    rw [hserved] at ht
    obtain ⟨hlt, hfirst⟩ := h.served k t ht
    rw [htickets]
    exact ⟨hlt, fun w hw => hfirst w ((hqueues k).subset hw)⟩

/-- A step that leaves the threads alone. -/
theorem InOrder.of_queues (h : InOrder s)
    (hqueues : ∀ k, (queueAt s'.queues k).Sublist (queueAt s.queues k))
    (htickets : s'.tickets = s.tickets) (hserved : s'.served = s.served)
    (hprocesses : s'.processes = s.processes ∨
      ∃ todo, s'.processes = s.processes ++ [⟨todo, []⟩]) : InOrder s' := by
  refine h.of_sublist hqueues htickets hserved ?_ fun k => ?_
  · intro process hprocess frame hframe w hw
    refine ⟨process, ?_, frame, hframe, rfl, hw⟩
    rcases hprocesses with heq | ⟨todo, heq⟩
    · rwa [heq] at hprocess
    · rw [heq, mem_append, mem_singleton] at hprocess
      rcases hprocess with hprocess | rfl
      · exact hprocess
      · simp at hframe
  · rcases hprocesses with heq | ⟨todo, heq⟩
    · rw [frameSum, heq, frameSum]
    · exact (frameSum_append _ heq).le

theorem InOrder.of_client (h : InOrder s) (id : Nat) (c : Client κ ν) :
    InOrder (setClient s id c) :=
  h.of_queues (fun _ => .refl _) rfl rfl (.inl rfl)

theorem sum_keeps_eq_zero {frames : List (Frame κ ν)} (h : ∀ frame ∈ frames, frame.kept? = none)
    (k : κ) : (frames.map (keeps k)).sum = 0 := by
  rw [List.sum_eq_zero_iff_forall_eq_nat]
  intro n hn
  obtain ⟨frame, hframe, rfl⟩ := mem_map.mp hn
  simp [Frame.keeps, h frame hframe]

/-- A thread changes its innermost call and keeps at most the request it has. -/
theorem InOrder.of_frames (h : InOrder s)
    (hp : s.processes[p]? = some ⟨todo, ⟨key, stage⟩ :: below⟩) (top : List (Frame κ ν))
    {todo' : List κ} (hs' : s'.processes = s.processes.set p ⟨todo', top ++ below⟩)
    (hqueues : s'.queues = s.queues) (htickets : s'.tickets = s.tickets)
    (hserved : s'.served = s.served)
    (htop : ∀ frame ∈ top, ∀ w, frame.kept? = some w →
      frame.key = key ∧ kept? (⟨key, stage⟩ : Frame κ ν) = some w)
    (hcount : ∀ k, (top.map (keeps k)).sum ≤ keeps k ⟨key, stage⟩) : InOrder s' := by
  have hmem := mem_of_getElem? hp
  refine h.of_sublist (fun k => hqueues ▸ .refl _) htickets hserved ?_ fun k => ?_
  · intro process hprocess frame hframe w hw
    rw [hs'] at hprocess
    rcases mem_or_eq_of_mem_set hprocess with hold | rfl
    · exact ⟨process, hold, frame, hframe, rfl, hw⟩
    · rcases mem_append.mp hframe with hframe | hframe
      · obtain ⟨hkey, hkept⟩ := htop frame hframe w hw
        exact ⟨_, hmem, _, mem_cons_self, hkey.symm, hkept⟩
      · exact ⟨_, hmem, frame, mem_cons_of_mem _ hframe, rfl, hw⟩
  · have hsum := frameSum_top (keeps k) hp hs'
    have := hcount k
    omega

/-- A thread goes to another stage with the request it has, or lets go of it. -/
theorem InOrder.of_stage (h : InOrder s) {stage' : DrainStage κ ν}
    (hp : s.processes[p]? = some ⟨todo, ⟨key, stage⟩ :: below⟩)
    (hstage : ∀ w, Frame.kept? (⟨key, stage'⟩ : Frame κ ν) = some w →
      Frame.kept? (⟨key, stage⟩ : Frame κ ν) = some w) :
    InOrder (setProcess s p ⟨todo, ⟨key, stage'⟩ :: below⟩) := by
  refine h.of_frames hp [⟨key, stage'⟩] rfl rfl rfl rfl ?_ fun k => ?_
  · intro frame hframe w hw
    rw [mem_singleton.mp hframe] at hw ⊢
    exact ⟨rfl, hstage w hw⟩
  · simp only [map_singleton, sum_singleton, Frame.keeps]
    split
    · rename_i hkept
      obtain ⟨w, hw⟩ := Option.isSome_iff_exists.mp hkept.1
      rw [if_pos ⟨Option.isSome_iff_exists.mpr ⟨w, hstage w hw⟩, hkept.2⟩]
    · exact Nat.zero_le _

/-- A thread goes on with calls that keep no request. -/
theorem InOrder.of_free (h : InOrder s) (hp : s.processes[p]? = some ⟨todo, ⟨key, stage⟩ :: below⟩)
    (top : List (Frame κ ν)) (hnone : ∀ frame ∈ top, frame.kept? = none) :
    InOrder (setProcess s p ⟨todo, top ++ below⟩) := by
  refine h.of_frames hp top rfl rfl rfl rfl ?_ fun k => ?_
  · intro frame hframe w hw
    rw [hnone frame hframe] at hw
    cases hw
  · rw [sum_keeps_eq_zero hnone]
    exact Nat.zero_le _

/-- A thread takes the first request while no other thread keeps one of that key. -/
theorem inOrder_take (h : InOrder s) (hp : s.processes[p]? = some ⟨todo, ⟨key, .take⟩ :: below⟩)
    (halone : frameSum (Frame.keeps key) s = 0) (journal : Journal) :
    InOrder (drainStep s p todo key below journal .take) := by
  simp only [drainStep]
  split
  · exact h.of_free hp [] (by simp)
  rename_i w queue hqueue
  have hsorted := h.queue key
  rw [hqueue, pairwise_cons] at hsorted
  -- The new call is the only one that keeps a request of the key.
  have hqueues : ∀ k, (queueAt (setQueue s.queues key queue) k).Sublist (queueAt s.queues k) := by
    intro k
    by_cases heq : k = key
    · subst heq
      rw [queueAt_setQueue_self, hqueue]
      exact sublist_cons_self w queue
    · rw [queueAt_setQueue_of_ne _ _ heq]
  have hbelow : InOrder { s with queues := setQueue s.queues key queue } :=
    h.of_queues hqueues rfl rfl (.inl rfl)
  refine ⟨hbelow.queue, hbelow.queued, ?_, ?_, hbelow.served, hbelow.log⟩
  · intro process hprocess frame hframe v hv
    rcases mem_or_eq_of_mem_set hprocess with hold | rfl
    · exact hbelow.kept process hold frame hframe v hv
    rcases mem_cons.mp hframe with rfl | hframe
    · cases hv
      refine ⟨h.queued key w (hqueue ▸ mem_cons_self), ?_, ?_⟩
      · intro v hv
        simp only [queueAt_setQueue_self] at hv
        exact hsorted.1 v hv
      · intro t ht
        exact (h.served key t ht).2 w (hqueue ▸ mem_cons_self)
    · exact hbelow.kept _ (mem_of_getElem? hp) frame (mem_cons_of_mem _ hframe) v hv
  · intro k
    have hsum : frameSum (Frame.keeps k) (setProcess s p ⟨todo, [⟨key, .reserve w⟩] ++ below⟩) + _ =
        frameSum (Frame.keeps k) s + _ := frameSum_top (Frame.keeps k) hp rfl
    have hle := h.single k
    simp only [Frame.keeps, Frame.kept?, map_singleton] at hsum
    show frameSum (Frame.keeps k) (setProcess s p ⟨todo, ⟨key, .reserve w⟩ :: below⟩) ≤ 1
    by_cases heq : key = k
    · subst heq
      simp at hsum
      omega
    · simp [heq] at hsum
      omega

/-- Where no request of a key is kept, a frame that keeps one is for another key. -/
theorem key_ne_of_kept {k : κ} (hzero : frameSum (keeps k) s = 0) {process : Process κ ν}
    (hprocess : process ∈ s.processes) {frame : Frame κ ν} (hframe : frame ∈ process.frames)
    (hkept : frame.kept? = some w) : frame.key ≠ k := by
  intro hkey
  rw [frameSum, List.sum_eq_zero_iff_forall_eq_nat] at hzero
  have hsum := hzero _ (mem_map_of_mem hprocess)
  rw [List.sum_eq_zero_iff_forall_eq_nat] at hsum
  have hone := hsum _ (mem_map_of_mem hframe)
  simp [Frame.keeps, hkept, hkey] at hone

/-- A request is served: it is the only one of its key that a thread keeps. -/
theorem InOrder.serve (h : InOrder s)
    (hp : s.processes[p]? = some ⟨todo, ⟨key, .commit w⟩ :: below⟩)
    (hs' : s'.processes = s.processes.set p ⟨todo, ⟨key, .send w x⟩ :: below⟩)
    (hqueues : s'.queues = s.queues) (htickets : s'.tickets = s.tickets)
    (hserved : s'.served = (key, w.ticket) :: s.served) : InOrder s' := by
  have hmem := mem_of_getElem? hp
  obtain ⟨hlt, hfirst, hlast⟩ := h.kept _ hmem _ mem_cons_self w rfl
  have hsum : ∀ k, frameSum (keeps k) s' + keeps k (⟨key, .commit w⟩ : Frame κ ν) =
      frameSum (keeps k) s := by
    intro k
    have hsum := @frameSum_top _ _ (keeps k) _ _ _ _ _ _ _ [⟨key, .send w x⟩] _ hp hs'
    simpa [Frame.keeps, Frame.kept?] using hsum
  have hzero : frameSum (keeps key) s' = 0 := by
    have := hsum key
    have := h.single key
    have hone : keeps key (⟨key, .commit w⟩ : Frame κ ν) = 1 := by
      simp [Frame.keeps, Frame.kept?]
    omega
  refine ⟨hqueues ▸ h.queue, ?_, ?_, ?_, ?_, ?_⟩
  · rw [hqueues, htickets]
    exact h.queued
  · intro process hprocess frame hframe v hv
    have hne := key_ne_of_kept hzero hprocess hframe hv
    have hold : ∃ process' ∈ s.processes, frame ∈ process'.frames := by
      rw [hs'] at hprocess
      rcases mem_or_eq_of_mem_set hprocess with hold | rfl
      · exact ⟨process, hold, hframe⟩
      · rcases mem_cons.mp hframe with rfl | hframe
        · exact absurd rfl hne
        · exact ⟨_, hmem, mem_cons_of_mem _ hframe⟩
    obtain ⟨process', hprocess', hframe'⟩ := hold
    obtain ⟨hlt', hfirst', hlast'⟩ := h.kept process' hprocess' frame hframe' v hv
    rw [hqueues, htickets, hserved]
    refine ⟨hlt', hfirst', fun t ht => ?_⟩
    rcases mem_cons.mp ht with heq | ht
    · simp only [Prod.mk.injEq] at heq
      exact absurd heq.1 hne
    · exact hlast' t ht
  · intro k
    have := hsum k
    have := h.single k
    omega
  · intro k t ht
    rw [hserved, mem_cons] at ht
    rw [hqueues, htickets]
    rcases ht with heq | ht
    · simp only [Prod.mk.injEq] at heq
      rw [heq.1, heq.2]
      exact ⟨hlt, hfirst⟩
    · exact h.served k t ht
  · intro k
    rw [hserved]
    by_cases heq : key = k
    · subst heq
      rw [filter_cons_of_pos (by simp), map_cons, pairwise_cons]
      refine ⟨?_, h.log key⟩
      intro t ht
      obtain ⟨⟨k', t'⟩, hfilter, rfl⟩ := mem_map.mp ht
      obtain ⟨hin, hk⟩ := mem_filter.mp hfilter
      have hk' : k' = key := by simpa using hk
      exact hlast t' (hk' ▸ hin)
    · rw [filter_cons_of_neg (by simpa using heq)]
      exact h.log k

/-- A thread without calls starts some that keep nothing. -/
theorem InOrder.of_idle (h : InOrder s) (hp : s.processes[p]? = some ⟨todo, []⟩) {todo' : List κ}
    (frames : List (Frame κ ν)) (hnone : ∀ frame ∈ frames, frame.kept? = none) :
    InOrder (setProcess s p ⟨todo', frames⟩) := by
  refine h.of_sublist (fun _ => .refl _) rfl rfl ?_ fun k => ?_
  · intro process hprocess frame hframe w hw
    rcases mem_or_eq_of_mem_set hprocess with hold | rfl
    · exact ⟨process, hold, frame, hframe, rfl, hw⟩
    · rw [hnone frame hframe] at hw
      cases hw
  · have hsum : frameSum (keeps k) (setProcess s p ⟨todo', frames⟩) + _ =
        frameSum (keeps k) s + _ := frameSum_setProcess (keeps k) hp rfl
    rw [sum_keeps_eq_zero hnone] at hsum
    omega

theorem inOrder_reserve (h : InOrder s)
    (hp : s.processes[p]? = some ⟨todo, ⟨key, .reserve w⟩ :: below⟩) (journal : Journal) :
    InOrder (drainStep s p todo key below journal (.reserve w)) := by
  simp only [drainStep]
  split
  · exact h.of_stage hp (by simp [kept?])
  split
  · exact h.of_stage hp (by simp [kept?])
  · split
    · exact h.of_stage hp (by simp [kept?])
    · exact (h.of_stage hp (by simp [kept?])).of_client _ _

/-- A request is served, or stays with the call that will put it back. -/
theorem inOrder_commit (h : InOrder s)
    (hp : s.processes[p]? = some ⟨todo, ⟨key, .commit w⟩ :: below⟩) (journal : Journal) :
    InOrder (drainStep s p todo key below journal (.commit w)) := by
  have hback : InOrder (setProcess s p ⟨todo, ⟨key, .putBack w true⟩ :: below⟩) :=
    h.of_stage hp fun v hv => hv
  simp only [drainStep]
  split
  · exact hback
  · exact hback
  · exact hback.of_queues (fun _ => .refl _) rfl rfl (.inl rfl)
  · split
    · exact h
    · exact h.serve hp rfl rfl rfl rfl

theorem inOrder_send (h : InOrder s)
    (hp : s.processes[p]? = some ⟨todo, ⟨key, .send w x⟩ :: below⟩) (journal : Journal) :
    InOrder (drainStep s p todo key below journal (.send w x)) := by
  simp only [drainStep]
  split
  · exact h
  refine InOrder.of_client ?_ _ _
  split
  · split
    · exact h.of_free hp [⟨_, .take⟩, ⟨key, .take⟩] (by simp [kept?])
    · exact h.of_stage hp (by simp [kept?])
  · exact h.of_stage hp (by simp [kept?])

theorem inOrder_release (h : InOrder s)
    (hp : s.processes[p]? = some ⟨todo, ⟨key, .release w⟩ :: below⟩) (journal : Journal) :
    InOrder (drainStep s p todo key below journal (.release w)) := by
  simp only [drainStep]
  split
  · exact h
  · refine InOrder.of_client ?_ _ _
    exact h.of_free hp [] (by simp)

/-- A request goes back to the front. -/
theorem inOrder_putBack (h : InOrder s) {permitted : Bool}
    (hp : s.processes[p]? = some ⟨todo, ⟨key, .putBack w permitted⟩ :: below⟩) (journal : Journal) :
    InOrder (drainStep s p todo key below journal (.putBack w permitted)) := by
  have hmem := mem_of_getElem? hp
  obtain ⟨hlt, hfirst, hlast⟩ := h.kept _ hmem _ mem_cons_self w rfl
  -- First the thread lets go of the request, then the queue gets it.
  have hfree : ∀ top : List (Frame κ ν), (∀ frame ∈ top, frame.kept? = none) →
      InOrder (setProcess s p ⟨todo, top ++ below⟩) ∧
        frameSum (keeps key) (setProcess s p ⟨todo, top ++ below⟩) = 0 := by
    intro top htop
    refine ⟨h.of_free hp top htop, ?_⟩
    have hsum : frameSum (keeps key) (setProcess s p ⟨todo, top ++ below⟩) + _ =
        frameSum (keeps key) s + _ := frameSum_top (keeps key) hp rfl
    have hone : keeps key (⟨key, .putBack w permitted⟩ : Frame κ ν) = 1 := by
      simp [Frame.keeps, Frame.kept?]
    have := h.single key
    have := sum_keeps_eq_zero htop key
    omega
  have hback : ∀ t : State κ ν, InOrder t → frameSum (keeps key) t = 0 → t.queues = s.queues →
      t.tickets = s.tickets → t.served = s.served →
      InOrder { t with queues := setQueue s.queues key (w :: queueAt s.queues key) } := by
    intro t ht hzero hqueues htickets hserved
    have hq := ht.queue
    have hqd := ht.queued
    have hk := ht.kept
    have hsv := ht.served
    rw [hqueues] at hq hqd hk hsv
    refine ⟨?_, ?_, ?_, ht.single, ?_, ht.log⟩
    · intro k
      by_cases heq : k = key
      · subst heq
        rw [queueAt_setQueue_self, pairwise_cons]
        exact ⟨hfirst, hq k⟩
      · rw [queueAt_setQueue_of_ne _ _ heq]
        exact hq k
    · intro k v hv
      dsimp only at hv
      rcases mem_queueAt_setQueue hv with hv | hv
      · rcases mem_cons.mp hv with rfl | hv
        · exact htickets ▸ hlt
        · exact hqd key v hv
      · exact hqd k v hv
    · intro process hprocess frame hframe v hv
      have hne := key_ne_of_kept hzero hprocess hframe hv
      have := hk process hprocess frame hframe v hv
      simp only [queueAt_setQueue_of_ne _ _ hne]
      exact this
    · intro k t' ht'
      obtain ⟨hlt', hfirst'⟩ := hsv k t' ht'
      refine ⟨hlt', fun v hv => ?_⟩
      by_cases heq : k = key
      · subst heq
        rw [queueAt_setQueue_self, mem_cons] at hv
        rcases hv with rfl | hv
        · exact hlast t' (hserved ▸ ht')
        · exact hfirst' v hv
      · rw [queueAt_setQueue_of_ne _ _ heq] at hv
        exact hfirst' v hv
  simp only [drainStep]
  split
  · obtain ⟨hin, hzero⟩ := hfree [⟨key, .release w⟩] (by simp [kept?])
    exact hback _ hin hzero rfl rfl rfl
  · obtain ⟨hin, hzero⟩ := hfree [] (by simp)
    exact hback _ hin hzero rfl rfl rfl

/-! ## Runs -/

/-- A step outside the windows that the code leaves open. -/
def Attentive (argStr : κ → κ) (s : State κ ν) : Op κ ν → Bool
  | .overwrite changes => quietly s (applyChanges s.data changes) []
  | .list (.command command journal _) =>
    let effect := runCommands argStr s.data [command]
    journal = .rejected ||
      quietly s effect.data (if journal = .committed then effect.wakes else [])
  | .list (.exec commands _ journal _) =>
    let effect := runCommands argStr s.data commands
    journal = .rejected ||
      quietly s effect.data (if journal = .committed then effect.wakes else [])
  | .list (.block keys popLeft destination journal _) =>
    match firstAttempt s keys popLeft destination with
    | some popped => journal = .rejected || quietly s popped.2 []
    | none => keys.all fun key => argStr key = key
  | .list (.register id) =>
    match s.clients[id]? with
    | some c =>
      match c.phase with
      | .registering (key :: _) => !filled s.data (argStr key)
      | _ => true
    | none => true
  | .list (.advance p journal) =>
    match s.processes[p]? with
    | some ⟨_, ⟨key, .take⟩ :: _⟩ => frameSum (Frame.keeps key) s == 0
    | some ⟨_, ⟨key, .commit w⟩ :: _⟩ =>
      journal ≠ .poisoned || (attempt s.data key w).all fun popped => quietly s popped.2 []
    | some ⟨_, ⟨key, .putBack _ _⟩ :: _⟩ => !filled s.data key
    | _ => true
  | _ => true

/-- What a run keeps. -/
structure Attended (s : State κ ν) : Prop where
  awake : Awake s
  order : InOrder s

section

variable (h : Attended s)
include h

/-- A step of the lists that wakes nobody. -/
theorem Attended.of_data (hprocesses : s'.processes = s.processes)
    (hqueues : s'.queues = s.queues) (htickets : s'.tickets = s.tickets)
    (hserved : s'.served = s.served) (hquietly : quietly s s'.data [] = true) : Attended s' :=
  ⟨h.awake.of_data hqueues hquietly (fun _ hprocess => hprocesses ▸ hprocess) (by simp),
    h.order.of_queues (fun _ => hqueues ▸ .refl _) htickets hserved (.inl hprocesses)⟩

theorem attended_perform (effect : Effect κ ν)
    (hquietly : journal = .rejected ∨
      quietly s effect.data (if journal = .committed then effect.wakes else []) = true)
    (hwake : ∀ key ∈ effect.wakes, key ∈ wake) (reply : Reply) :
    Attended (perform s effect wake reply journal) := by
  cases journal with
  | rejected => exact h
  | poisoned => exact h.of_data rfl rfl rfl rfl (hquietly.resolve_left (by simp))
  | committed =>
    have hquiet := hquietly.resolve_left (by simp)
    refine ⟨h.awake.of_data rfl hquiet ?_ ?_, h.order.of_queues (fun _ => .refl _) rfl rfl ?_⟩
    · intro process hprocess
      simp only [perform]
      split
      · exact hprocess
      · exact mem_append_left _ hprocess
    · intro key hkey
      have hmem := hwake key hkey
      have hne : wake.isEmpty = false := by
        cases wake with
        | nil => cases hmem
        | cons k ks => rfl
      refine ⟨⟨wake, []⟩, by simp [perform, hne], ?_⟩
      simpa [Process.attends] using hmem
    · simp only [perform]
      split
      · exact .inl rfl
      · exact .inr ⟨wake, rfl⟩

/-- A step of one client that takes requests out of the queues or none. -/
theorem Attended.of_queues (hdata : s'.data = s.data)
    (hprocesses : s'.processes = s.processes) (htickets : s'.tickets = s.tickets)
    (hserved : s'.served = s.served)
    (hqueues : ∀ k, (queueAt s'.queues k).Sublist (queueAt s.queues k)) : Attended s' := by
  refine ⟨h.awake.of_queues hdata hprocesses fun k _ hqueue hempty => ?_,
    h.order.of_queues hqueues htickets hserved (.inl hprocesses)⟩
  have hsub := hqueues k
  rw [hempty, sublist_nil] at hsub
  exact hqueue hsub

/-- A client registers on an empty list, behind all who wait there. -/
theorem attended_register (id : Nat)
    (hattentive : Attentive argStr s (.list (.register id)) = true) :
    Attended (listStep argStr s (.register id)) := by
  simp only [listStep]
  split
  · rename_i c hc
    split
    · rename_i asked rest hphase
      set key := argStr asked with hkey
      have hempty : filled s.data key = false := by
        simpa [Attentive, hc, hphase] using hattentive
      refine ⟨h.awake.of_queues rfl rfl ?_, ?_⟩
      · intro k hk hqueue
        rwa [queueAt_setQueue_of_ne _ _ (ne_of_filled hempty hk)] at hqueue
      · have hmem : ∀ {k : κ} {w : Waiter κ}, w ∈ queueAt (setQueue s.queues key
            (queueAt s.queues key ++ [⟨id, c.popLeft, c.destination, s.tickets⟩])) k →
            w ∈ queueAt s.queues k ∨ w.ticket = s.tickets := by
          intro k w hw
          by_cases heq : k = key
          · rw [heq] at hw ⊢
            rw [queueAt_setQueue_self, mem_append, mem_singleton] at hw
            rcases hw with hw | rfl
            · exact .inl hw
            · exact .inr rfl
          · rw [queueAt_setQueue_of_ne _ _ heq] at hw
            exact .inl hw
        refine ⟨?_, ?_, ?_, h.order.single, ?_, h.order.log⟩
        · intro k
          by_cases heq : k = key
          · rw [heq, queueAt_setQueue_self, pairwise_append]
            refine ⟨h.order.queue key, by simp, ?_⟩
            intro w hw v hv
            rw [mem_singleton.mp hv]
            exact h.order.queued key w hw
          · rw [queueAt_setQueue_of_ne _ _ heq]
            exact h.order.queue k
        · intro k w hw
          rcases hmem hw with hw | hw
          · exact Nat.lt_succ_of_lt (h.order.queued k w hw)
          · exact hw ▸ Nat.lt_succ_self _
        · intro process hprocess frame hframe w hw
          obtain ⟨hlt, hfirst, hlast⟩ := h.order.kept process hprocess frame hframe w hw
          refine ⟨Nat.lt_succ_of_lt hlt, fun v hv => ?_, hlast⟩
          rcases hmem hv with hv | hv
          · exact hfirst v hv
          · exact hv ▸ hlt
        · intro k t ht
          obtain ⟨hlt, hfirst⟩ := h.order.served k t ht
          refine ⟨Nat.lt_succ_of_lt hlt, fun v hv => ?_⟩
          rcases hmem hv with hv | hv
          · exact hfirst v hv
          · exact hv ▸ hlt
    · exact h.of_queues rfl rfl rfl rfl fun _ => .refl _
    · exact h
  · exact h

theorem attended_advance {p : Nat}
    (hattentive : Attentive argStr s (.list (.advance p journal)) = true) :
    Attended (advance s p journal) := by
  unfold advance
  split
  · exact h
  · rename_i todo key stage below hp
    cases stage with
    | take =>
      simp only [Attentive, hp, beq_iff_eq] at hattentive
      exact ⟨awake_take h.awake hp journal, inOrder_take h.order hp hattentive journal⟩
    | reserve w =>
      exact ⟨awake_reserve h.awake hp journal, inOrder_reserve h.order hp journal⟩
    | commit w =>
      simp only [Attentive, hp, Bool.or_eq_true] at hattentive
      refine ⟨awake_commit h.awake hp ?_, inOrder_commit h.order hp journal⟩
      intro hpoisoned x data hattempt
      have hquiet := hattentive.resolve_left (by simp [hpoisoned])
      simpa [hattempt] using hquiet
    | send w x =>
      exact ⟨awake_send h.awake hp journal, inOrder_send h.order hp journal⟩
    | putBack w permitted =>
      have hempty : filled s.data key = false := by simpa [Attentive, hp] using hattentive
      exact ⟨awake_putBack h.awake hp hempty journal, inOrder_putBack h.order hp journal⟩
    | release w =>
      exact ⟨awake_release h.awake hp journal, inOrder_release h.order hp journal⟩
  · rename_i key todo hp
    split
    · refine ⟨?_, h.order.of_idle hp _ (by simp [kept?])⟩
      refine h.awake.of_process hp rfl (fun k hk hqueue => .inl ⟨hk, hqueue⟩) ?_
      intro k hold _ _
      simp only [Process.attends, contains_cons, any_nil, Bool.or_false, Bool.or_eq_true,
        beq_iff_eq] at hold
      simp only [Process.attends, any_cons, any_nil, wakes, Bool.or_false,
        Bool.or_eq_true, decide_eq_true_eq]
      rcases hold with hold | hold
      · exact .inr hold.symm
      · exact .inl hold
    · rename_i hnone
      refine ⟨?_, h.order.of_idle hp [] (by simp)⟩
      intro k _ hqueue
      exact absurd (queueAt_eq_nil (Bool.eq_false_iff.mpr hnone) k) hqueue
  · exact h

/-- **One step.** -/
theorem attended_opStep (op : Op κ ν) (hattentive : Attentive argStr s op = true) :
    Attended (opStep argStr s op) := by
  cases op with
  | overwrite changes => exact h.of_data rfl rfl rfl rfl hattentive
  | list op =>
    cases op with
    | command command journal reply =>
      exact attended_perform h _ (by simpa [Attentive] using hattentive) (fun _ hkey => hkey) reply
    | exec commands wake journal reply =>
      simp only [opStep, listStep]
      split
      · rename_i hperm
        refine attended_perform h _ (by simpa [Attentive] using hattentive)
          (fun key hkey => ?_) reply
        exact (isPerm_iff.mp hperm).mem_iff.mpr (mem_dedup.mpr hkey)
      · exact h
    | block keys popLeft destination journal reply =>
      simp only [opStep, listStep]
      split
      · rename_i xs data hattempt
        exact h.of_data rfl rfl rfl rfl (by simpa [Attentive, hattempt] using hattentive)
      · rename_i xs data hattempt
        exact h.of_data rfl rfl rfl rfl (by simpa [Attentive, hattempt] using hattentive)
      · exact h
      · split
        · exact h
        · exact h.of_queues rfl rfl rfl rfl fun _ => .refl _
    | register id => exact attended_register h id hattentive
    | receive id _ | timeout id | disconnect id | close id | abandon id =>
      simp only [opStep, listStep, endWait]
      split
      · split
        · exact h.of_queues rfl rfl rfl rfl fun _ => .refl _
        · exact h
      · exact h
    | unregister id =>
      simp only [opStep, listStep]
      split
      · split
        · exact h.of_queues rfl rfl rfl rfl (queueAt_removeWaiters s.queues _ _)
        · exact h
      · exact h
    | advance p journal => exact attended_advance h hattentive

end

/-! ## The keys of the queues -/

/-- What a step leaves of the clients: their keys. -/
def KeepsKeys (s s' : State κ ν) : Prop := ∀ c' ∈ s'.clients, ∃ c ∈ s.clients, c'.keys = c.keys

omit [DecidableEq κ] in
theorem KeepsKeys.of_eq (h : s'.clients = s.clients) : KeepsKeys s s' :=
  fun c' hc' => ⟨c', h ▸ hc', rfl⟩

omit [DecidableEq κ] in
theorem KeepsKeys.of_set {id : Nat} {c c' : Client κ ν} (hc : s.clients[id]? = some c)
    (hs' : s'.clients = s.clients.set id c') (hkeys : c'.keys = c.keys) : KeepsKeys s s' := by
  intro d hd
  rw [hs'] at hd
  rcases mem_or_eq_of_mem_set hd with hold | rfl
  · exact ⟨d, hold, rfl⟩
  · exact ⟨c, mem_of_getElem? hc, hkeys⟩

theorem keepsKeys_drainStep (s : State κ ν) (p : Nat) (todo : List κ) (key : κ)
    (below : List (Frame κ ν)) (journal : Journal) (stage : DrainStage κ ν) :
    KeepsKeys s (drainStep s p todo key below journal stage) := by
  cases stage with
  | take | putBack w permitted =>
    refine .of_eq ?_
    simp only [drainStep]
    split
    · rfl
    · rfl
  | reserve w =>
    simp only [drainStep]
    split
    · exact .of_eq rfl
    · rename_i c hc
      split
      · exact .of_eq rfl
      split
      · exact .of_eq rfl
      · exact .of_set hc rfl rfl
  | commit w =>
    simp only [drainStep]
    split
    · exact .of_eq rfl
    · exact .of_eq rfl
    · exact .of_eq rfl
    · split
      · exact .of_eq rfl
      · rename_i c hc
        exact .of_set hc rfl rfl
  | send w x | release w =>
    simp only [drainStep]
    split
    · exact .of_eq rfl
    · rename_i c hc
      exact .of_set hc rfl rfl

/-- Every key on which a client blocks is what `arg_str` makes of it. -/
def Named (argStr : κ → κ) (s : State κ ν) : Prop :=
  ∀ c ∈ s.clients, ∀ key ∈ c.keys, argStr key = key

omit [DecidableEq κ] in
theorem Named.of_keeps (h : Named argStr s) (hkeeps : KeepsKeys s s') : Named argStr s' := by
  intro c' hc' key hkey
  obtain ⟨c, hc, hkeys⟩ := hkeeps c' hc'
  exact h c hc key (hkeys ▸ hkey)

theorem named_opStep (h : Named argStr s) (op : Op κ ν)
    (hattentive : Attentive argStr s op = true) :
    Named argStr (opStep argStr s op) := by
  cases op with
  | overwrite changes => exact h.of_keeps (.of_eq rfl)
  | list op =>
    cases op with
    | command command journal reply =>
      refine h.of_keeps (.of_eq ?_)
      cases journal with
      | committed | rejected | poisoned => rfl
    | exec commands wake journal reply =>
      refine h.of_keeps (.of_eq ?_)
      simp only [opStep, listStep]
      split
      · cases journal with
        | committed | rejected | poisoned => rfl
      · rfl
    | block keys popLeft destination journal reply =>
      simp only [opStep, listStep]
      split
      · exact h
      · exact h
      · exact h
      · rename_i hnone
        split
        · exact h
        · have htext : ∀ key ∈ keys, argStr key = key := by
            simpa [Attentive, hnone] using hattentive
          intro c hc
          rcases mem_append.mp hc with hold | hnew
          · exact h c hold
          · rw [mem_singleton.mp hnew]
            exact htext
    | register id =>
      refine h.of_keeps ?_
      simp only [opStep, listStep]
      split
      · rename_i c hc
        split
        · exact .of_set hc rfl rfl
        · exact .of_set hc rfl rfl
        · exact .of_eq rfl
      · exact .of_eq rfl
    | receive id _ | timeout id | disconnect id | unregister id | close id | abandon id =>
      refine h.of_keeps ?_
      simp only [opStep, listStep, endWait]
      split
      · rename_i c hc
        split
        · exact .of_set hc rfl rfl
        · exact .of_eq rfl
      · exact .of_eq rfl
    | advance p journal =>
      refine h.of_keeps ?_
      simp only [opStep, listStep, advance]
      split
      · exact .of_eq rfl
      · exact keepsKeys_drainStep s p _ _ _ journal _
      · split
        · exact .of_eq rfl
        · exact .of_eq rfl
      · exact .of_eq rfl

/-- When nothing is running no client is registered for a key of its command that holds a
list with elements, and the requests of a queue are served in the order of their
registration. -/
structure NobodySleeps (argStr : κ → κ) (s : State κ ν) : Prop where
  awake : Quiet s → ∀ id c, s.clients[id]? = some c → ∀ key ∈ c.keys,
    filled s.data key = true → ∀ w ∈ queueAt s.queues (argStr key), w.waiterId ≠ id
  first : ∀ key t, (key, t) ∈ s.served → ∀ w ∈ queueAt s.queues key, t < w.ticket
  log : ∀ key, ((s.served.filter (·.1 = key)).map Prod.snd).Pairwise (· > ·)

theorem Attended.nobodySleeps (h : Attended s) (hnamed : Named argStr s) :
    NobodySleeps argStr s := by
  refine ⟨?_, fun key t ht => (h.order.served key t ht).2, h.order.log⟩
  intro hquiet id c hc key hkey hfilled w hw
  rw [hnamed c (mem_of_getElem? hc) key hkey] at hw
  obtain ⟨process, hprocess, hattends⟩ := h.awake key hfilled (ne_nil_of_mem hw)
  obtain ⟨htodo, hframes⟩ := hquiet.processes process hprocess
  simp [Process.attends, htodo, hframes] at hattends

/-- A server on which nobody has been blocked yet. -/
structure Untouched (s : State κ ν) : Prop where
  queues : s.queues = []
  clients : s.clients = []
  processes : s.processes = []
  served : s.served = []

theorem Untouched.attended (h : Untouched s) : Attended s := by
  have hqueue : ∀ key, queueAt s.queues key = [] := fun key => by simp [h.queues, queueAt]
  refine ⟨fun key _ hne => absurd (hqueue key) hne, ?_⟩
  exact ⟨by simp [hqueue], by simp [hqueue], by simp [h.processes], by simp [frameSum, h.processes],
    by simp [h.served], by simp [h.served]⟩

/-- **No client sleeps beside data**, and clients are served in order, in every run whose
steps are all attentive. -/
theorem no_client_sleeps (argStr : κ → κ) (hstart : Untouched s) (ops : List (Op κ ν))
    (hsafe : Safe (opStep argStr) (fun s op => Attentive argStr s op = true) s ops) :
    NobodySleeps argStr (run (opStep argStr) s ops) := by
  have hrun := invariant (I := fun s => Attended s ∧ Named argStr s)
    (fun _ op hattentive h => ⟨attended_opStep h.1 op hattentive, named_opStep h.2 op hattentive⟩)
    hsafe ⟨hstart.attended, by simp [Named, hstart.clients]⟩
  exact hrun.1.nobodySleeps hrun.2

end

/-- Two clients wait on one list and are woken by a push of two elements, the first one
first. -/
theorem no_client_sleeps_two : NobodySleeps id
    (run (opStep id) (⟨[], [], [], [], [], [], 0, []⟩ : State Nat Nat)
    [.list (.block [1] true none .committed), .list (.register 0), .list (.register 0),
      .list (.block [1] true none .committed), .list (.register 1), .list (.register 1),
      .list (.command (.push 1 [7, 8] false) .committed), .list (.advance 0 .committed),
      .list (.advance 0 .committed), .list (.advance 0 .committed), .list (.advance 0 .committed),
      .list (.advance 0 .committed), .list (.advance 0 .committed), .list (.advance 0 .committed),
      .list (.advance 0 .committed), .list (.advance 0 .committed),
      .list (.advance 0 .committed)]) :=
  no_client_sleeps id ⟨rfl, rfl, rfl, rfl⟩ _ (by decide)

/-- A client blocks on a key that `arg_str` changes, and another one pushes to the key: the
waking thread looks under the changed key and puts the request back. -/
theorem run_renamed {κ ν : Type} [DecidableEq κ] {argStr : κ → κ} {key : κ}
    (h : argStr key ≠ key) (x : ν) :
    run (opStep argStr) (⟨[], [], [], [], [], [], 0, []⟩ : State κ ν)
      [.list (.block [key] true none .committed), .list (.register 0), .list (.register 0),
        .list (.command (.push key [x] false) .committed), .list (.advance 0 .committed),
        .list (.advance 0 .committed), .list (.advance 0 .committed),
        .list (.advance 0 .committed), .list (.advance 0 .committed),
        .list (.advance 0 .committed)] =
    ⟨[(key, .list [x])], [(argStr key, [⟨0, true, none, 0⟩])],
      [⟨[key], true, none, none, false, .waiting, 0⟩], [⟨[], []⟩], [x], [], 1, []⟩ := by
  have hlookup : lookup (argStr key) [(key, Held.list [x])] = none := by
    rw [lookup_cons, beq_false_of_ne h]
    rfl
  simp [hlookup, opStep, listStep, firstAttempt, popFirst, blockError, isOther, setQueue,
    queueAt, put, perform, runCommands, ListCommand.apply, ListCommand.adds, ListCommand.wakes,
    pushTo, advance, hasListWaiters, waiterCount, drainStep, setProcess, setClient, erase,
    Client.isClosed, attempt, popFrom, Reply.gives]

/-- What `arg_str` makes of a key, as a key. -/
def keyText (key : ByteCodec.Bytes) : ByteCodec.Bytes := ByteCodec.utf8 (ByteCodec.argStr key)

/-- Four ways to sleep beside data: a push between the look at the list and the
registration; a list that is renamed to the key; a client behind one that was just served
through its other key; and a key that is no text. -/
theorem sleeps_beside_data :
    ¬ NobodySleeps id (run (opStep id) (⟨[], [], [], [], [], [], 0, []⟩ : State Nat Nat)
      [.list (.block [1] true none .committed), .list (.command (.push 1 [7] false) .committed),
        .list (.advance 0 .committed), .list (.register 0), .list (.register 0)]) ∧
    ¬ NobodySleeps id (run (opStep id) (⟨[], [], [], [], [], [], 0, []⟩ : State Nat Nat)
      [.list (.command (.push 2 [7] false) .committed), .list (.advance 0 .committed),
        .list (.block [1] true none .committed), .list (.register 0), .list (.register 0),
        .overwrite [(2, none), (1, some (.list [7]))]]) ∧
    ¬ NobodySleeps id (run (opStep id) (⟨[], [], [], [], [], [], 0, []⟩ : State Nat Nat)
      [.list (.block [1, 2] true none .committed), .list (.register 0), .list (.register 0),
        .list (.register 0), .list (.block [2] true none .committed), .list (.register 1),
        .list (.register 1), .list (.command (.push 1 [7] false) .committed),
        .list (.advance 0 .committed), .list (.advance 0 .committed), .list (.advance 0 .committed),
        .list (.advance 0 .committed), .list (.advance 0 .committed), .list (.advance 0 .committed),
        .list (.command (.push 2 [8] false) .committed), .list (.advance 1 .committed),
        .list (.advance 1 .committed), .list (.advance 1 .committed), .list (.advance 1 .committed),
        .list (.receive 0), .list (.unregister 0), .list (.close 0)]) ∧
    ¬ NobodySleeps keyText (run (opStep keyText) ⟨[], [], [], [], [], [], 0, []⟩
      [.list (.block [[0xff]] true none .committed), .list (.register 0), .list (.register 0),
        .list (.command (.push [0xff] [7] false) .committed), .list (.advance 0 .committed),
        .list (.advance 0 .committed), .list (.advance 0 .committed),
        .list (.advance 0 .committed), .list (.advance 0 .committed),
        .list (.advance 0 .committed)]) := by
  refine ⟨fun h => ?_, fun h => ?_, fun h => ?_, fun h => ?_⟩
  · exact h.awake ⟨by decide, by decide⟩ 0 _ rfl 1 (by decide) (by decide)
      ⟨0, true, none, 0⟩ (by decide) rfl
  · exact h.awake ⟨by decide, by decide⟩ 0 _ rfl 1 (by decide) (by decide)
      ⟨0, true, none, 0⟩ (by decide) rfl
  · exact h.awake ⟨by decide, by decide⟩ 1 _ rfl 2 (by decide) (by decide)
      ⟨1, true, none, 2⟩ (by decide) rfl
  · rw [run_renamed (show keyText [0xff] ≠ [0xff] by decide) 7] at h
    exact h.awake ⟨by simp, by simp⟩ 0 _ rfl [0xff] (by simp) rfl ⟨0, true, none, 0⟩
      (by simp [queueAt]) rfl

end Lux.Lists
