import Lux.ListConservation

/-!
# Blocked pops conserve elements

The balance of the elements over whole runs. A step is `Orderly` if it does not fall
into one of the windows that the code leaves open: a pop for a client whose wait is
over while its requests are still queued, a wait that ends by timeout or disconnect
although an element has been popped for it, a journal that another thread has poisoned
between a pop and its completion, and a reply with popped elements that does not reach its
client.
-/

namespace Lux.Lists

open KeyedList Runs List Lists.Frame

section

variable {κ ν : Type} [DecidableEq κ] [DecidableEq ν] {argStr : κ → κ} {s : State κ ν}

/-! ## Commands -/

/-- A client is given what was popped for it, or nothing was popped. -/
def Journal.answered (reply : Reply) : Journal → Bool
  | .committed => reply = .delivered
  | .rejected => true
  | .poisoned => false


/-- A step of the lists that touches no client and no request. -/
theorem Balanced.of_lists {s' : State κ ν} (hs : Balanced s) (hkeyed : Keyed s'.data)
    (hclients : s'.clients = s.clients) (hqueues : s'.queues = s.queues)
    (hprocesses : s'.processes = s.processes ∨
      ∃ todo, s'.processes = s.processes ++ [⟨todo, []⟩])
    (hbalance : ∀ x, s'.pushed.count x + (stock s.data x + s.handed.count x) =
      s.pushed.count x + (stock s'.data x + s'.handed.count x)) : Balanced s' := by
  have hsum : ∀ f : Frame κ ν → Nat, frameSum f s' = frameSum f s := by
    intro f
    rcases hprocesses with heq | ⟨todo, heq⟩
    · rw [frameSum, heq, frameSum]
    · exact frameSum_append f heq
  refine hs.of_same hkeyed hclients (hqueues ▸ hs.queued) ?_ (fun _ => hsum _) (fun _ => hsum _) ?_
  · intro process hprocess frame hframe w hw
    have hold : process ∈ s.processes := by
      rcases hprocesses with heq | ⟨todo, heq⟩
      · rwa [heq] at hprocess
      · rw [heq, mem_append, mem_singleton] at hprocess
        rcases hprocess with hprocess | rfl
        · exact hprocess
        · simp at hframe
    exact hs.held process hold frame hframe w hw
  · intro x
    have := hbalance x
    rw [hsum]
    omega

omit [DecidableEq ν] in
/-- What an answered command hands out arrives. -/
theorem gives_of_answered {reply : Reply} {xs : List ν}
    (h : (Journal.committed.answered reply || xs.isEmpty) = true) : reply.gives xs = xs := by
  cases reply with
  | delivered => rfl
  | withheld =>
    have hempty : xs = [] := by simpa [Journal.answered] using h
    rw [hempty]
    rfl

theorem balanced_perform (hs : Balanced s) (commands : List (ListCommand κ ν)) (wake : List κ)
    {journal : Journal} {reply : Reply}
    (hanswered : (journal.answered reply ||
      (runCommands argStr s.data commands).hands.isEmpty) = true) :
    Balanced (perform s (runCommands argStr s.data commands) wake reply journal) := by
  obtain ⟨hkeyed, hstock⟩ := runCommands_stock argStr hs.keyed commands
  cases journal with
  | rejected => exact hs
  | committed =>
    refine hs.of_lists hkeyed rfl rfl ?_ fun x => ?_
    · simp only [perform]
      split
      · exact .inl rfl
      · exact .inr ⟨wake, rfl⟩
    · have := hstock x
      simp only [perform, gives_of_answered hanswered, count_append]
      omega
  | poisoned =>
    have hempty : (runCommands argStr s.data commands).hands = [] := by
      simpa [Journal.answered] using hanswered
    refine hs.of_lists hkeyed rfl rfl (.inl rfl) fun x => ?_
    have := hstock x
    rw [hempty, count_nil] at this
    simp only [perform, count_append]
    omega

theorem firstAttempt_stock {keys : List κ} {popLeft : Bool} {destination : Option (κ × Bool)}
    {xs : List ν} {data : List (κ × Held ν)} (hs : Balanced s)
    (h : firstAttempt s keys popLeft destination = some (xs, data)) :
    Keyed data ∧ ∀ y, stock s.data y = stock data y + xs.count y := by
  unfold firstAttempt at h
  split at h
  · exact popFirst_stock hs.keyed h
  · cases hmove : moveOne s.data _ _ popLeft _ with
    | none =>
      rw [hmove] at h
      cases h
    | some moved =>
      rw [hmove] at h
      obtain ⟨rfl, rfl⟩ := h
      obtain ⟨hkeyed, hstock⟩ := moveOne_stock hs.keyed hmove
      exact ⟨hkeyed, fun y => by simp [hstock y]⟩
  · cases h

/-! ## A new client -/

omit [DecidableEq κ] [DecidableEq ν] in
theorem Frame.permits_eq_zero {id : Nat} {frame : Frame κ ν}
    (h : ∀ w, frame.stage.waiter? = some w → w.waiterId ≠ id) : frame.permits id = 0 := by
  obtain ⟨key, stage⟩ := frame
  cases stage with
  | take => rfl
  | reserve w => rfl
  | commit w => simpa [permits] using h w rfl
  | send w x => simpa [permits] using h w rfl
  | putBack w permitted =>
    cases permitted with
    | true => simpa [permits] using h w rfl
    | false => rfl
  | release w => simpa [permits] using h w rfl

/-- No drain knows of a client that is not there yet. -/
theorem Balanced.permits_new (hs : Balanced s) :
    frameSum (permits s.clients.length) s = 0 := by
  rw [frameSum, List.sum_eq_zero_iff_forall_eq_nat]
  intro n hn
  obtain ⟨process, hprocess, rfl⟩ := mem_map.mp hn
  rw [List.sum_eq_zero_iff_forall_eq_nat]
  intro m hm
  obtain ⟨frame, hframe, rfl⟩ := mem_map.mp hm
  refine permits_eq_zero fun w hw hid => ?_
  obtain ⟨c, hc, -⟩ := hs.held process hprocess frame hframe w hw
  have := (List.getElem?_eq_some_iff.mp hc).1
  omega

/-- A client that starts to block. -/
theorem Balanced.new_client (hs : Balanced s) (keys : List κ) (popLeft : Bool)
    (destination : Option (κ × Bool)) :
    Balanced { s with
      clients := s.clients ++
        [⟨keys, popLeft, destination, none, false, .registering keys, 0⟩] } := by
  have hknown : ∀ w, Known s w → Known { s with clients := s.clients ++
      [⟨keys, popLeft, destination, none, false, .registering keys, 0⟩] } w := by
    rintro w ⟨c, hc, hdestination⟩
    have hlt := (List.getElem?_eq_some_iff.mp hc).1
    exact ⟨c, (getElem?_append_left hlt).trans hc, hdestination⟩
  refine ⟨hs.keyed, fun key w hw => hknown w (hs.queued key w hw),
    fun process hprocess frame hframe w hw => hknown w (hs.held process hprocess frame hframe w hw),
    ?_, ?_⟩
  · intro x
    have := hs.balance x
    simp only [map_append, map_singleton, sum_append,
      Client.holds, Option.toList_none, count_nil, ite_self]
    exact this
  · intro id c hc
    by_cases hid : id < s.clients.length
    · rw [getElem?_append_left hid] at hc
      exact hs.accounts id c hc
    have heq : id = s.clients.length := by
      have := (List.getElem?_eq_some_iff.mp hc).1
      simp only [length_append, length_singleton] at this
      omega
    subst heq
    simp only [getElem?_concat_length, Option.some.injEq] at hc
    subst hc
    have hpermits := hs.permits_new
    have hsends : frameSum (sends s.clients.length) s = 0 := by
      have := sends_le_permits s.clients.length s
      omega
    exact ⟨by simp [frameSum] at hpermits ⊢; omega, fun _ => hpermits, fun _ => by
      simpa [frameSum] using hsends.symm, by simp [Phase.outcome?]⟩

/-! ## The steps of a client -/

variable {c : Client κ ν}

omit [DecidableEq κ] [DecidableEq ν] in
/-- A client whose wait is as far as before. -/
theorem Account.of_phase {permits sends : Nat} (h : Account c permits sends) {phase : Phase κ ν}
    (hphase : phase.outcome? = c.phase.outcome?) :
    Account { c with phase := phase } permits sends :=
  ⟨h.exclusive, h.permit, fun hnone => h.waits (hphase.symm.trans hnone),
    fun outcome hsome => h.ended outcome (hphase.symm.trans hsome)⟩

/-- A client changes, nothing else that counts. -/
theorem Balanced.of_phase {s' : State κ ν} (hs : Balanced s) {id : Nat} {c' : Client κ ν}
    (hc : s.clients[id]? = some c) (hclients : s'.clients = s.clients.set id c')
    (hsame : s'.data = s.data ∧ s'.pushed = s.pushed ∧ s'.processes = s.processes)
    (hdestination : c'.destination = c.destination)
    (hqueued : ∀ key, ∀ w ∈ queueAt s'.queues key, Known s w)
    (hbalance : ∀ x, s.handed.count x + c.holds x = s'.handed.count x + c'.holds x)
    (haccount : ∀ permits sends, sends ≤ permits → Account c permits sends →
      sends = frameSum (Frame.sends id) s → Account c' permits sends) : Balanced s' := by
  obtain ⟨hdata, hpushed, hprocesses⟩ := hsame
  have hsum : ∀ f : Frame κ ν → Nat, frameSum f s' = frameSum f s := by
    intro f
    rw [frameSum, hprocesses, frameSum]
  refine hs.of_client hc hdestination hclients (hdata ▸ hs.keyed) hqueued (hprocesses ▸ hs.held) ?_
    (fun _ _ => ⟨hsum _, hsum _⟩) ?_
  · intro x
    have := hbalance x
    rw [hdata, hpushed, hsum]
    omega
  · rw [hsum, hsum]
    exact haccount _ _ (sends_le_permits id s) (hs.accounts id c hc) rfl

theorem balanced_register (hs : Balanced s) (id : Nat) :
    Balanced (listStep argStr s (.register id)) := by
  simp only [listStep]
  split
  · rename_i c hc
    split
    · rename_i key rest hphase
      refine hs.of_phase hc rfl ⟨rfl, rfl, rfl⟩ rfl ?_ (fun x => rfl) ?_
      · intro k w hw
        rcases mem_queueAt_setQueue hw with hw | hw
        · rcases mem_append.mp hw with hw | hw
          · exact hs.queued _ w hw
          · rw [mem_singleton.mp hw]
            exact ⟨c, hc, rfl⟩
        · exact hs.queued k w hw
      · exact fun permits sends _ haccount _ => haccount.of_phase (by rw [hphase]; rfl)
    · rename_i hphase
      exact hs.of_phase hc rfl ⟨rfl, rfl, rfl⟩ rfl hs.queued (fun x => rfl)
        fun permits sends _ haccount _ => haccount.of_phase (by rw [hphase]; rfl)
    · exact hs
  · exact hs

/-- The client takes the element out of its slot: nothing else is on its way to it. -/
theorem balanced_receive (hs : Balanced s) (id : Nat) {reply : Reply}
    (hreply : (decide (reply = .delivered) ||
      (s.clients[id]?).all fun c => c.destination.isSome || c.slot.isNone) = true) :
    Balanced (listStep argStr s (.receive id reply)) := by
  simp only [listStep]
  split
  · rename_i c hc
    split
    · rename_i x hphase hslot
      refine hs.of_phase hc rfl ⟨rfl, rfl, rfl⟩ rfl hs.queued (fun y => ?_) ?_
      · simp only [Client.holds, hslot, Option.toList_none, count_nil,
          ite_self]
        split
        · rename_i hpop
          have hdelivered : reply = .delivered := by
            simpa [hc, hslot, Option.isNone_iff_eq_none.mp hpop] using hreply
          simp [hdelivered, Reply.gives, count_cons]
        · simp
      · intro permits sends hle haccount _
        have hexclusive := haccount.exclusive
        have hwaits := haccount.waits (by simp [hphase, Phase.outcome?])
        simp only [hslot, Option.toList_some, length_singleton] at hexclusive hwaits
        refine ⟨by simp only [Option.toList_none, length_nil]; omega, haccount.permit,
          by simp [Phase.outcome?], ?_⟩
        intro outcome houtcome
        cases houtcome
        exact ⟨rfl, by omega, by simp only [Outcome.elements]; omega⟩
    · exact hs
  · exact hs

/-- Nothing has been popped for the client. -/
def untaken (s : State κ ν) (id : Nat) : Bool :=
  (s.clients[id]?).all (·.slot.isNone) && frameSum (Frame.sends id) s == 0

omit [DecidableEq κ] [DecidableEq ν] in
theorem Account.of_untaken {id : Nat} (hc : s.clients[id]? = some c)
    (huntaken : untaken s id = true) {permits sends : Nat} (haccount : Account c permits sends)
    (hsends : sends = frameSum (Frame.sends id) s) (hphase : c.phase = .waiting) {phase : Phase κ ν}
    {outcome : Outcome ν} (hphase' : phase.outcome? = some outcome)
    (houtcome : outcome.elements = 0) :
    Account { c with phase := phase, slot := none } permits sends := by
  simp only [untaken, hc, Option.all_some, Bool.and_eq_true, Option.isNone_iff_eq_none,
    beq_iff_eq] at huntaken
  have hexclusive := haccount.exclusive
  have hwaits := haccount.waits (by simp [hphase, Phase.outcome?])
  simp only [huntaken.1, Option.toList_none, length_nil] at hexclusive hwaits
  refine ⟨by simpa using hexclusive, haccount.permit, by simp [hphase'], ?_⟩
  intro outcome' houtcome'
  rw [hphase'] at houtcome'
  cases houtcome'
  exact ⟨rfl, by omega, by simp only; omega⟩

omit [DecidableEq κ] [DecidableEq ν] in
theorem slot_of_untaken {id : Nat} (hc : s.clients[id]? = some c) (huntaken : untaken s id = true) :
    c.slot = none := by
  simp only [untaken, hc, Option.all_some, Bool.and_eq_true, Option.isNone_iff_eq_none] at huntaken
  exact huntaken.1

section

variable (hs : Balanced s)
include hs

theorem balanced_endWait (id : Nat) {outcome : Outcome ν}
    (houtcome : outcome.elements = 0) (huntaken : untaken s id = true) :
    Balanced (endWait s id outcome) := by
  unfold endWait
  split
  · rename_i c hc
    split
    · rename_i hphase
      refine hs.of_phase hc rfl ⟨rfl, rfl, rfl⟩ rfl hs.queued (fun x => rfl) ?_
      intro permits sends _ haccount hsends
      have hnew := haccount.of_untaken hc huntaken hsends hphase
        (show (Phase.ended outcome : Phase κ ν).outcome? = some outcome from rfl) houtcome
      rwa [← slot_of_untaken hc huntaken] at hnew
    · exact hs
  · exact hs

theorem balanced_abandon (id : Nat) (huntaken : untaken s id = true) :
    Balanced (listStep argStr s (.abandon id)) := by
  simp only [listStep]
  split
  · rename_i c hc
    split
    · rename_i hphase
      refine hs.of_phase hc rfl ⟨rfl, rfl, rfl⟩ rfl hs.queued (fun x => ?_) ?_
      · simp [Client.holds, slot_of_untaken hc huntaken, setClient]
      · intro permits sends _ haccount hsends
        exact haccount.of_untaken hc huntaken hsends hphase rfl rfl
    · exact hs
  · exact hs

theorem balanced_unregister (id : Nat) :
    Balanced (listStep argStr s (.unregister id)) := by
  simp only [listStep]
  split
  · rename_i c hc
    split
    · rename_i outcome hphase
      refine hs.of_phase hc rfl ⟨rfl, rfl, rfl⟩ rfl ?_ (fun x => rfl) ?_
      · intro key w hw
        exact hs.queued key w ((queueAt_removeWaiters s.queues _ id key).subset hw)
      · exact fun permits sends _ haccount _ => haccount.of_phase (by rw [hphase]; rfl)
    · exact hs
  · exact hs

theorem balanced_close (id : Nat) : Balanced (listStep argStr s (.close id)) := by
  simp only [listStep]
  split
  · rename_i c hc
    split
    · rename_i outcome hphase
      have hover := fun permits sends (haccount : Account c permits sends) =>
        haccount.ended outcome (by simp [hphase, Phase.outcome?])
      have hslot : c.slot = none := (hover _ _ (hs.accounts id c hc)).1
      refine hs.of_phase hc rfl ⟨rfl, rfl, rfl⟩ rfl hs.queued (fun x => ?_) ?_
      · simp [Client.holds, hslot, setClient]
      · intro permits sends _ haccount _
        have hexclusive := haccount.exclusive
        refine ⟨by simp only [Option.toList_none, length_nil]; omega, haccount.permit,
          by simp [Phase.outcome?], ?_⟩
        intro outcome' houtcome
        cases houtcome
        exact ⟨rfl, (hover _ _ haccount).2.1, (hover _ _ haccount).2.2⟩
    · exact hs
  · exact hs

/-! ## Runs -/

/-- A step outside the windows that the code leaves open. -/
def Orderly (argStr : κ → κ) (s : State κ ν) : ListOp κ ν → Bool
  | .command command journal reply =>
    journal.answered reply || (runCommands argStr s.data [command]).hands.isEmpty
  | .exec commands _ journal reply =>
    journal.answered reply || (runCommands argStr s.data commands).hands.isEmpty
  | .block keys popLeft destination journal reply =>
    (firstAttempt s keys popLeft destination).all fun popped =>
      journal.answered reply || popped.1.isEmpty
  | .receive id reply =>
    reply = .delivered ||
      (s.clients[id]?).all fun c => c.destination.isSome || c.slot.isNone
  | .timeout id => untaken s id
  | .disconnect id => untaken s id
  | .abandon id => untaken s id
  | .advance p journal =>
    match s.processes[p]? with
    | some ⟨_, ⟨key, .commit w⟩ :: _⟩ =>
      (attempt s.data key w).isNone || journal = .rejected ||
        (journal = .committed && (s.clients[w.waiterId]?).all (·.isOpen))
    | _ => true
  | _ => true

theorem balanced_advance {p : Nat} {journal : Journal}
    (horderly : Orderly argStr s (.advance p journal) = true) :
    Balanced (advance s p journal) := by
  unfold advance
  split
  · exact hs
  · rename_i todo key stage below hp
    cases stage with
    | take => exact balanced_take hs hp journal
    | reserve w => exact balanced_reserve hs hp journal
    | commit w =>
      refine balanced_commit hs hp fun hsome => ?_
      simp only [Orderly, hp, Bool.or_eq_true, Bool.and_eq_true, decide_eq_true_eq] at horderly
      rcases horderly with (hnone | hrejected) | ⟨hcommitted, hopen⟩
      · rw [Option.isNone_iff_eq_none] at hnone
        simp [hnone] at hsome
      · exact .inl hrejected
      · refine .inr ⟨hcommitted, fun c hc => ?_⟩
        simpa [hc] using hopen
    | send w x => exact balanced_send hs hp journal
    | putBack w permitted => exact balanced_putBack hs hp journal
    | release w => exact balanced_release hs hp journal
  · rename_i key todo hp
    have hsame : ∀ todo' frames, (∀ frame ∈ frames, frame.stage = .take) →
        Balanced (setProcess s p ⟨todo', frames⟩) := by
      intro todo' frames hframes
      have hzero : ∀ f : Frame κ ν → Nat, (∀ k, f ⟨k, .take⟩ = 0) →
          frameSum f (setProcess s p ⟨todo', frames⟩) = frameSum f s := by
        intro f hf
        have hset : frameSum f (setProcess s p ⟨todo', frames⟩) + _ = frameSum f s + _ :=
          frameSum_setProcess f hp rfl
        rw [sum_take_eq_zero hf hframes, map_nil] at hset
        exact hset
      refine hs.of_same hs.keyed rfl hs.queued ?_ (fun _ => hzero _ fun _ => rfl)
        (fun _ => hzero _ fun _ => rfl) fun _ => by rw [hzero _ fun _ => rfl]; rfl
      intro process hprocess frame hframe w hw
      rcases mem_or_eq_of_mem_set hprocess with hold | rfl
      · exact hs.held process hold frame hframe w hw
      · rw [hframes frame hframe] at hw
        cases hw
    split
    · exact hsame _ _ (by simp)
    · exact hsame _ _ (by simp)
  · exact hs

/-- **One step.**  The counts stay balanced. -/
theorem balanced_listStep (op : ListOp κ ν) (horderly : Orderly argStr s op = true) :
    Balanced (listStep argStr s op) := by
  cases op with
  | command command journal reply => exact balanced_perform hs [command] _ horderly
  | exec commands wake journal reply =>
    simp only [listStep]
    split
    · exact balanced_perform hs commands wake horderly
    · exact hs
  | block keys popLeft destination journal reply =>
    simp only [listStep]
    cases hattempt : firstAttempt s keys popLeft destination with
    | none =>
      split
      · simp at *
      · simp at *
      · simp at *
      · split
        · exact hs
        · exact hs.new_client keys popLeft _
    | some popped =>
      obtain ⟨xs, data⟩ := popped
      obtain ⟨hkeyed, hstock⟩ := firstAttempt_stock hs hattempt
      simp only [Orderly, hattempt, Option.all_some] at horderly
      cases journal with
      | rejected => exact hs
      | committed =>
        refine hs.of_lists hkeyed rfl rfl (.inl rfl) fun x => ?_
        have := hstock x
        simp only [gives_of_answered horderly, count_append]
        omega
      | poisoned =>
        have hxs : xs = [] := by simpa [Journal.answered] using horderly
        refine hs.of_lists hkeyed rfl rfl (.inl rfl) fun x => ?_
        have := hstock x
        rw [hxs, count_nil] at this
        simp only
        omega
  | register id => exact balanced_register hs id
  | receive id reply => exact balanced_receive hs id horderly
  | timeout id | disconnect id => exact balanced_endWait hs id rfl horderly
  | unregister id => exact balanced_unregister hs id
  | close id => exact balanced_close hs id
  | abandon id => exact balanced_abandon hs id horderly
  | advance p journal => exact balanced_advance hs horderly

end

/-- No operation is running: no thread is waking clients, and every blocked client
sleeps with an empty slot or is gone. -/
structure Quiet (s : State κ ν) : Prop where
  processes : ∀ process ∈ s.processes, process.todo = [] ∧ process.frames = []
  clients : ∀ c ∈ s.clients, c.phase = .waiting ∧ c.slot = none ∨ c.isClosed = true

/-- Every element that was pushed is in one list or was handed to one client, and no
client has taken what it did not receive. -/
structure Conserved (s : State κ ν) : Prop where
  elements : Quiet s → ∀ x, s.pushed.count x = (elements s.data).count x + s.handed.count x
  once : ∀ c ∈ s.clients, c.taken ≤ 1
  received : ∀ c ∈ s.clients, ∀ x, c.phase.outcome? = some (.received x) → c.taken = 1
  none : ∀ c ∈ s.clients, c.phase.outcome? = some .timedOut ∨
    c.phase.outcome? = some .disconnected → c.taken = 0

theorem Balanced.conserved (hs : Balanced s) : Conserved s := by
  have haccount : ∀ c ∈ s.clients, ∃ permits sends, sends ≤ permits ∧ Account c permits sends := by
    intro c hc
    obtain ⟨id, hid⟩ := mem_iff_getElem?.mp hc
    exact ⟨_, _, sends_le_permits id s, hs.accounts id c hid⟩
  refine ⟨?_, ?_, ?_, ?_⟩
  · intro hquiet x
    have hslots : (s.clients.map (·.holds x)).sum = 0 := by
      rw [List.sum_eq_zero_iff_forall_eq_nat]
      intro n hn
      obtain ⟨c, hc, rfl⟩ := mem_map.mp hn
      have hslot : c.slot = none := by
        rcases hquiet.clients c hc with ⟨-, hslot⟩ | hclosed
        · exact hslot
        obtain ⟨permits, sends, -, h⟩ := haccount c hc
        unfold Client.isClosed at hclosed
        split at hclosed
        · rename_i outcome hphase
          exact (h.ended outcome (by simp [hphase, Phase.outcome?])).1
        · cases hclosed
      simp [Client.holds, hslot]
    have hframes : frameSum (carries x) s = 0 := by
      rw [frameSum, List.sum_eq_zero_iff_forall_eq_nat]
      intro n hn
      obtain ⟨process, hprocess, rfl⟩ := mem_map.mp hn
      simp [(hquiet.processes process hprocess).2]
    have := hs.balance x
    rw [count_elements]
    omega
  · intro c hc
    obtain ⟨permits, sends, hle, h⟩ := haccount c hc
    have hexclusive := h.exclusive
    cases hphase : c.phase.outcome? with
    | none =>
      have := h.waits hphase
      omega
    | some outcome =>
      have := (h.ended outcome hphase).2.2
      cases outcome <;> simp [Outcome.elements] at this <;> omega
  · intro c hc x hphase
    obtain ⟨permits, sends, -, h⟩ := haccount c hc
    exact (h.ended _ hphase).2.2
  · intro c hc hphase
    obtain ⟨permits, sends, -, h⟩ := haccount c hc
    rcases hphase with hphase | hphase
    · exact (h.ended _ hphase).2.2
    · exact (h.ended _ hphase).2.2

/-- A server on which nobody is blocked. -/
structure Fresh (s : State κ ν) : Prop where
  keyed : (s.data.map Prod.fst).Nodup
  queues : s.queues = []
  clients : s.clients = []
  processes : s.processes = []
  pushed : s.pushed = elements s.data
  handed : s.handed = []

theorem Fresh.balanced (h : Fresh s) : Balanced s := by
  refine ⟨h.keyed, ?_, ?_, ?_, ?_⟩
  · simp [h.queues, queueAt]
  · simp [h.processes]
  · simp [h.clients, h.handed, h.processes, h.pushed, frameSum, count_elements]
  · simp [h.clients]

/-- **Blocked pops conserve elements** in every run of pushes, pops, moves, transactions
and blocked clients whose steps are all orderly. -/
theorem blocked_pops_conserve (argStr : κ → κ) (hstart : Fresh s) (ops : List (ListOp κ ν))
    (hsafe : Safe (listStep argStr) (fun s op => Orderly argStr s op = true) s ops) :
    Conserved (run (listStep argStr) s ops) :=
  (invariant (I := Balanced) (fun _ op horderly hs => balanced_listStep hs op horderly) hsafe
    hstart.balanced).conserved

end

/-- A client blocks on two lists and is served from the second. -/
theorem blocked_pops_conserve_two : Conserved
    (run (listStep id) (⟨[], [], [], [], [], [], 0, []⟩ : State Nat Nat)
    [.block [1, 2] true none .committed, .register 0, .register 0, .register 0,
      .command (.push 2 [7, 8] false) .committed, .advance 0 .committed, .advance 0 .committed,
      .advance 0 .committed, .advance 0 .committed, .advance 0 .committed, .receive 0,
      .unregister 0, .close 0, .advance 0 .committed]) :=
  blocked_pops_conserve id ⟨by decide, rfl, rfl, rfl, rfl, rfl⟩ _ (by decide)

/-- The timeout of a client passes between the pop that a pushing client makes for it and
the delivery: the element is in no list and nobody has received it. The same without blocked
clients: the reply of a pop is too long for the output and becomes an error. -/
theorem popped_for_nobody : Fresh (⟨[], [], [], [], [], [], 0, []⟩ : State Nat Nat) ∧
    ¬ Conserved (run (listStep id) (⟨[], [], [], [], [], [], 0, []⟩ : State Nat Nat)
      [.block [1] true none .committed, .register 0, .register 0,
        .command (.push 1 [7] false) .committed, .advance 0 .committed, .advance 0 .committed,
        .advance 0 .committed, .advance 0 .committed, .timeout 0, .advance 0 .committed,
        .advance 0 .committed, .unregister 0, .close 0]) ∧
    ¬ Conserved (run (listStep id) (⟨[], [], [], [], [], [], 0, []⟩ : State Nat Nat)
      [.command (.push 1 [7, 8] false) .committed, .advance 0 .committed,
        .command (.pop [1] true 2) .committed .withheld]) := by
  refine ⟨⟨by decide, rfl, rfl, rfl, rfl, rfl⟩, fun h => ?_, fun h => ?_⟩
  · have hcount := h.elements ⟨by decide, by decide⟩ 7
    revert hcount
    decide
  · have hcount := h.elements ⟨by decide, by decide⟩ 7
    revert hcount
    decide

end Lux.Lists
