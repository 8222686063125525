import Mathlib.Data.List.Induction

/-!
# Parsing a stream that arrives in chunks

A parser looks at the front of the bytes that have arrived and answers with an
item and the number of bytes it took, with a request for more bytes, or with a
failure. A reader that owns a socket keeps what has not been consumed, adds
each chunk to it and asks again until the parser wants more.

Whether the result depends on the cuts comes down to two things. An answer that
is not a request for more must survive the arrival of more bytes (`Stable`), and
a request for more must leave the front where it is (`Steady`). Under both, a
fold over any chunks is the one pass over the whole stream (`feedAll_eq_drain`).
-/

namespace ChunkedParse

open List

variable {α β ε : Type}

/-- What a parser says about the front of its input. A request for more bytes
names how many bytes it nevertheless consumed. -/
inductive Answer (α ε : Type) where
  | item (value : α) (size : Nat)
  | needMore (moved : Nat)
  | fail (error : ε)
  deriving DecidableEq, Repr

/-- A reader between two chunks: what it has parsed, what it keeps (or the
failure that ended it), and whether every request for more bytes so far left the
position alone. -/
structure Session (α β ε : Type) where
  items : List α
  pending : Except ε (List β)
  steady : Bool
  deriving DecidableEq

/-- Put the items of an earlier pass in front of a later one. -/
def Session.after (first later : Session α β ε) : Session α β ε :=
  ⟨first.items ++ later.items, later.pending, first.steady && later.steady⟩

section

variable (front : List β → Answer α ε)

/-- Ask the parser again and again, with a bound on the number of items. -/
def drainFuel : Nat → List β → Session α β ε
  | 0, input => ⟨[], .ok input, true⟩
  | fuel + 1, input =>
    match front input with
    | .item value size =>
      Session.after ⟨[value], .ok [], true⟩ (drainFuel fuel (input.drop size))
    | .needMore moved => ⟨[], .ok (input.drop moved), moved == 0⟩
    | .fail error => ⟨[], .error error, true⟩

/-- One pass over the bytes at hand. -/
def drain (input : List β) : Session α β ε := drainFuel front (input.length + 1) input

/-- The arrival of one chunk. A failed reader ignores what still arrives. -/
def feed (session : Session α β ε) (chunk : List β) : Session α β ε :=
  match session.pending with
  | .error _ => session
  | .ok kept => session.after (drain front (kept ++ chunk))

/-- The arrival of all chunks, from an empty reader. -/
def feedAll (chunks : List (List β)) : Session α β ε :=
  chunks.foldl (feed front) ⟨[], .ok [], true⟩

/-- Answers other than a plain request for more do not change when bytes are
added behind, and items take at least one byte of the input. Both are asked of
inputs below a bound only, the size of what fits in memory. -/
structure Stable (bound : Nat) : Prop where
  item : ∀ {input value size} more, (input ++ more).length < bound →
    front input = .item value size → front (input ++ more) = .item value size
  fail : ∀ {input error} more, (input ++ more).length < bound →
    front input = .fail error → front (input ++ more) = .fail error
  moved : ∀ {input n} more, (input ++ more).length < bound →
    front input = .needMore (n + 1) → front (input ++ more) = .needMore (n + 1)
  size : ∀ {input value size}, input.length < bound → front input = .item value size →
    0 < size ∧ size ≤ input.length

/-- The bytes that are left when some items have been taken off the front. -/
inductive Reaches : List β → List β → Prop
  | refl (input : List β) : Reaches input input
  | step {input rest : List β} {value : α} {size : Nat} (h : front input = .item value size)
      (hrest : Reaches (input.drop size) rest) : Reaches input rest

/-- No request for more on the way through the input moves the position. -/
def Steady (input : List β) : Prop :=
  ∀ rest, Reaches front input rest → ∀ moved, front rest = .needMore moved → moved = 0

end

variable {front : List β → Answer α ε} {bound : Nat} {input : List β}
  {size : Nat} {chunks : List (List β)} {value : α}

/-- An item makes the input shorter. -/
theorem Stable.length_drop (hstable : Stable front bound)
    (hbound : input.length < bound) (h : front input = .item value size) :
    (input.drop size).length < input.length := by
  obtain ⟨hpos, hle⟩ := hstable.size hbound h
  rw [List.length_drop]
  omega

/-- With more fuel than bytes the bound on the items is not felt. -/
theorem drainFuel_eq (hstable : Stable front bound) {fuel : Nat} (hbound : input.length < bound)
    (h : input.length < fuel) : drainFuel front fuel input = drain front input := by
  -- Both amounts of fuel are decreased together; the bytes bound either of them.
  suffices hall : ∀ n m, ∀ input : List β, input.length < bound → input.length < n →
      input.length < m → drainFuel front n input = drainFuel front m input from
    hall fuel (input.length + 1) input hbound h (Nat.lt_succ_self _)
  intro n
  induction n with
  | zero => intro m input hbound hn; omega
  | succ n ih =>
    intro m input hbound hn hm
    obtain ⟨m, rfl⟩ : ∃ k, m = k + 1 := ⟨m - 1, by omega⟩
    simp only [drainFuel]
    cases hfront : front input with
    | needMore moved => rfl
    | fail error => rfl
    | item value size =>
      have hlt := hstable.length_drop hbound hfront
      simp [ih m (input.drop size) (by omega) (by omega) (by omega)]

theorem drain_item (hstable : Stable front bound)
    (hbound : input.length < bound) (h : front input = .item value size) :
    drain front input = Session.after ⟨[value], .ok [], true⟩ (drain front (input.drop size)) := by
  have hlt := hstable.length_drop hbound h
  conv_lhs => unfold drain drainFuel
  simp only [h]
  rw [drainFuel_eq hstable (by omega) hlt]

theorem drain_needMore {moved : Nat} (h : front input = .needMore moved) :
    drain front input = ⟨[], .ok (input.drop moved), moved == 0⟩ := by
  unfold drain drainFuel
  simp [h]

theorem drain_fail {error : ε} (h : front input = .fail error) :
    drain front input = ⟨[], .error error, true⟩ := by
  unfold drain drainFuel
  simp [h]

@[simp] theorem after_pending (first later : Session α β ε) :
    (first.after later).pending = later.pending := rfl

@[simp] theorem after_steady (first later : Session α β ε) :
    (first.after later).steady = (first.steady && later.steady) := rfl

theorem after_assoc (a b c : Session α β ε) : (a.after b).after c = a.after (b.after c) := by
  simp [Session.after, Bool.and_assoc]

/-- Induction over the items at the front of an input. -/
theorem front_induction (hstable : Stable front bound)
    {P : ∀ input : List β, input.length < bound → Prop}
    (item : ∀ input value size hbound hrest, front input = .item value size →
      P (input.drop size) hrest → P input hbound)
    (needMore : ∀ input moved hbound, front input = .needMore moved → P input hbound)
    (fail : ∀ input error hbound, front input = .fail error → P input hbound)
    (input : List β) (hbound : input.length < bound) : P input hbound := by
  induction hn : input.length using Nat.strongRecOn generalizing input with
  | ind n ih =>
    cases hfront : front input with
    | needMore moved => exact needMore input moved hbound hfront
    | fail error => exact fail input error hbound hfront
    | item value size =>
      have hlt := hstable.length_drop hbound hfront
      have hrest : (input.drop size).length < bound := by omega
      exact item input value size hbound hrest hfront (ih _ (hn ▸ hlt) _ hrest rfl)

/-- What is steady is steady after its first item, and conversely. -/
theorem steady_item (hfront : front input = .item value size) :
    Steady front input ↔ Steady front (input.drop size) := by
  constructor
  · intro hsteady rest hreach
    exact hsteady rest (.step hfront hreach)
  · intro hsteady rest hreach moved hmoved
    cases hreach with
    | refl => rw [hfront] at hmoved; cases hmoved
    | step h hrest =>
      rw [hfront] at h
      injection h with _ hsize
      exact hsteady rest (hsize ▸ hrest) moved hmoved

theorem steady_needMore {moved : Nat} (hfront : front input = .needMore moved) :
    Steady front input ↔ moved = 0 := by
  constructor
  · intro hsteady
    exact hsteady input (.refl input) moved hfront
  · intro hzero rest hreach moved' hmoved
    cases hreach with
    | refl =>
      rw [hfront] at hmoved
      injection hmoved with hmoved
      rw [← hmoved, hzero]
    | step h hrest => rw [hfront] at h; cases h

theorem steady_fail {error : ε} (hfront : front input = .fail error) : Steady front input := by
  intro rest hreach moved hmoved
  cases hreach with
  | refl => rw [hfront] at hmoved; cases hmoved
  | step h hrest => rw [hfront] at h; cases h

/-- The ghost flag of a pass says exactly that the pass is steady. -/
theorem steady_drain (hstable : Stable front bound) (hbound : input.length < bound) :
    (drain front input).steady = true ↔ Steady front input := by
  induction input, hbound using front_induction hstable with
  | item input value size hbound _ hfront ih =>
    rw [drain_item hstable hbound hfront, after_steady, Bool.true_and, ih, steady_item hfront]
  | needMore input moved _ hfront =>
    rw [drain_needMore hfront, steady_needMore hfront, beq_iff_eq]
  | fail input error _ hfront =>
    rw [drain_fail hfront]
    exact iff_of_true rfl (steady_fail hfront)

/-- The rest of a longer stream after its first item. -/
theorem Stable.append_item (hstable : Stable front bound) {more : List β}
    (hbound : (input ++ more).length < bound) (hfront : front input = .item value size) :
    front (input ++ more) = .item value size ∧
      (input ++ more).drop size = input.drop size ++ more ∧
      (input.drop size ++ more).length < bound := by
  rw [length_append] at hbound
  obtain ⟨-, hle⟩ := hstable.size (by omega) hfront
  have hlt := hstable.length_drop (by omega) hfront
  refine ⟨hstable.item more (by rwa [length_append]) hfront, drop_append_of_le_length hle, ?_⟩
  rw [length_append]
  omega

/-- Reading on: a pass over more bytes is the pass over the first bytes, followed
by a pass over what that one kept. -/
theorem drain_append (hstable : Stable front bound) {more : List β}
    (hbound : (input ++ more).length < bound) (h : Steady front (input ++ more)) :
    drain front (input ++ more) = feed front (drain front input) more ∧ Steady front input := by
  have hinput : input.length < bound := by rw [length_append] at hbound; omega
  induction input, hinput using front_induction hstable with
  | item input value size hinput _ hfront ih =>
    obtain ⟨hwhole, hdrop, hrest⟩ := hstable.append_item hbound hfront
    rw [steady_item hwhole, hdrop] at h
    obtain ⟨heq, hsteady⟩ := ih hrest h
    refine ⟨?_, (steady_item hfront).mpr hsteady⟩
    rw [drain_item hstable hbound hwhole, drain_item hstable hinput hfront, hdrop, heq]
    unfold feed
    rw [after_pending]
    cases (drain front (input.drop size)).pending with
    | error error => rfl
    | ok kept => exact (after_assoc _ _ _).symm
  | needMore input moved _ hfront =>
    -- A request that moves would move on the longer stream too.
    have hzero : moved = 0 := by
      cases moved with
      | zero => rfl
      | succ n => exact (steady_needMore (hstable.moved more hbound hfront)).mp h
    refine ⟨?_, (steady_needMore hfront).mpr hzero⟩
    rw [drain_needMore hfront, hzero]
    simp [feed, Session.after]
  | fail input error _ hfront =>
    refine ⟨?_, steady_fail hfront⟩
    rw [drain_fail hfront, drain_fail (hstable.fail more hbound hfront)]
    rfl

/-- A pass keeps at most what it was given. -/
theorem drainFuel_pending {fuel : Nat} {kept : List β}
    (h : (drainFuel front fuel input).pending = .ok kept) : kept.length ≤ input.length := by
  induction fuel generalizing input with
  | zero =>
    cases h
    exact Nat.le_refl _
  | succ fuel ih =>
    rw [drainFuel] at h
    cases hfront : front input with
    | needMore moved =>
      simp only [hfront, Except.ok.injEq] at h
      rw [← h, length_drop]
      omega
    | fail error => simp [hfront] at h
    | item value size =>
      simp only [hfront] at h
      have hle := ih h
      rw [length_drop] at hle
      omega

/-- A reader keeps at most what has arrived. -/
theorem feedAll_pending {kept : List β}
    (h : (feedAll front chunks).pending = .ok kept) : kept.length ≤ chunks.flatten.length := by
  induction chunks using reverseRecOn generalizing kept with
  | nil =>
    cases h
    exact Nat.le_refl _
  | append_singleton first last ih =>
    rw [feedAll, foldl_append, foldl_cons, ← feedAll, feed] at h
    rw [flatten_append, flatten_singleton, length_append]
    cases hpending : (feedAll front first).pending with
    | error error => simp [hpending] at h
    | ok before =>
      simp only [hpending] at h
      have hle := drainFuel_pending h
      have hbefore := ih hpending
      rw [length_append] at hle
      omega

/-- **Cuts do not matter.**  On a steady stream every way of cutting it gives the
session of a single pass. -/
theorem feedAll_eq_drain (hstable : Stable front bound) (hne : chunks ≠ [])
    (hbound : chunks.flatten.length < bound) (h : Steady front chunks.flatten) :
    feedAll front chunks = drain front chunks.flatten := by
  -- The chunks are taken off at the end: the session of the first ones is one pass already.
  induction chunks using reverseRecOn with
  | nil => exact absurd rfl hne
  | append_singleton first last ih =>
    rw [flatten_append, flatten_singleton] at h hbound ⊢
    rw [feedAll, foldl_append, foldl_cons, foldl_nil, ← feedAll]
    by_cases hfirst : first = []
    · subst hfirst
      simp [feedAll, feed, Session.after]
    · obtain ⟨heq, hsteady⟩ := drain_append hstable hbound h
      rw [length_append] at hbound
      rw [ih hfirst (by omega) hsteady, heq]

end ChunkedParse
