import Lux.ListConservation
import Lux.Runs

/-!
# Byte budgets

Connections share a counter of the bytes they hold.  `try_grow` is a loop around
`compare_exchange_weak`, `release` and `drop` are a `fetch_sub`.  A step is one operation on the
counter, with what the connection does beside it to its own count, which nobody else sees.
`CountReservation` has the same code as `ByteReservation`.
-/

namespace Lux.Budgets

/-- `ByteReservation`; inside `try_grow`, what it asks for and the counter as it saw it last. -/
structure Reservation where
  bytes : Nat
  growing : Option (Nat × Nat)

/-- The counter, and the reservations that were made: `none` for those that are gone. -/
structure State where
  used : Nat
  reservations : List (Option Reservation)

inductive Label where
  | reservation
  | tryGrow (i bytes : Nat)
  /-- `compare_exchange_weak` may fail although the counter has the expected value. -/
  | exchange (i : Nat) (spurious : Bool)
  | release (i bytes : Nat)
  | drop (i : Nat)

variable (limit : UInt64) (s : State)

/-- What a pass of the loop of `try_grow` leaves, and what `try_grow` returns after it: nothing
yet if the loop goes on. -/
structure Pass where
  used : Nat
  reservation : Reservation
  returns : Option Bool

def exchange (r : Reservation) (bytes current : Nat) (spurious : Bool) : Pass :=
  if 2 ^ 64 ≤ current + bytes ∨ limit.toNat < current + bytes then
    ⟨s.used, ⟨r.bytes, none⟩, some false⟩
  else if current = s.used ∧ spurious = false then
    ⟨current + bytes, ⟨r.bytes + bytes, none⟩, some true⟩
  else ⟨s.used, ⟨r.bytes, some (bytes, s.used)⟩, none⟩

/-- What `fetch_sub` leaves. -/
def released (r : Reservation) (bytes : Nat) : Nat := (s.used + 2 ^ 64 - min bytes r.bytes) % 2 ^ 64

/-- A reservation that is still there acts. -/
def State.act (i : Nat) (f : Reservation → Nat × Option Reservation) : State :=
  match s.reservations[i]? with
  | some (some r) => ⟨(f r).1, s.reservations.set i (f r).2⟩
  | _ => s

/-- Nothing else is called on a reservation that is inside `try_grow`, which returns `true` at once
when it is asked for no bytes. -/
def step : Label → State
  | .reservation => { s with reservations := s.reservations ++ [some ⟨0, none⟩] }
  | .tryGrow i bytes => s.act i fun r =>
    (s.used, some (if r.growing.isSome ∨ bytes = 0 then r else ⟨r.bytes, some (bytes, s.used)⟩))
  | .exchange i spurious => s.act i fun r =>
    match r.growing with
    | none => (s.used, some r)
    | some (bytes, current) =>
      let pass := exchange limit s r bytes current spurious
      (pass.used, some pass.reservation)
  | .release i bytes => s.act i fun r =>
    if r.growing.isSome ∨ min bytes r.bytes = 0 then (s.used, some r)
    else (released s r bytes, some ⟨r.bytes - min bytes r.bytes, none⟩)
  | .drop i => s.act i fun r =>
    if r.growing.isSome then (s.used, some r)
    else (if r.bytes = 0 then s.used else released s r r.bytes, none)

/-- A pass that is granted moves the counter and the reservation by the bytes asked for, which
fit; any other pass moves neither. -/
def Pass.Exact (pass : Pass) (limit : UInt64) (s : State) (r : Reservation) (bytes : Nat) : Prop :=
  if pass.returns = some true then
    s.used + bytes ≤ limit.toNat ∧ pass.used = s.used + bytes ∧
      pass.reservation.bytes = r.bytes + bytes
  else pass.used = s.used ∧ pass.reservation.bytes = r.bytes

theorem exchange_exact (r : Reservation) (bytes current : Nat) (spurious : Bool) :
    (exchange limit s r bytes current spurious).Exact limit s r bytes := by
  unfold exchange
  split
  · exact ⟨rfl, rfl⟩
  · rename_i hfits
    split
    · rename_i hseen
      obtain ⟨rfl, -⟩ := hseen
      exact ⟨by omega, rfl, rfl⟩
    · exact ⟨rfl, rfl⟩

/-! ### The books -/

def held (r : Option Reservation) : Nat := r.elim 0 (·.bytes)

/-- What the connections hold together. -/
def State.total : Nat := (s.reservations.map held).sum

/-- The counter is what is held, and within the limit. -/
def Balanced : Prop := s.used = s.total ∧ s.used ≤ limit.toNat

variable {limit s} (h : Balanced limit s) {i : Nat}
include h

theorem Balanced.bytes_le {r : Reservation} (hr : s.reservations[i]? = some (some r)) :
    r.bytes ≤ s.used := by
  rw [h.1]
  exact List.single_le_sum (by simp) _ (List.mem_map_of_mem (List.mem_of_getElem? hr))

/-- **One action**: the counter moves by what the reservation gains or gives back. -/
theorem Balanced.act {f : Reservation → Nat × Option Reservation}
    (hf : ∀ r, r.bytes ≤ s.used →
      (f r).1 + r.bytes = s.used + held (f r).2 ∧ (f r).1 ≤ limit.toNat) :
    Balanced limit (s.act i f) := by
  unfold State.act
  split
  · rename_i r hr
    obtain ⟨hmoved, hlimit⟩ := hf r (h.bytes_le hr)
    have hsum : _ + r.bytes = _ := Lists.sum_map_set held hr (f r).2
    have hused : s.used = (s.reservations.map held).sum := h.1
    refine ⟨?_, hlimit⟩
    dsimp only [State.total]
    omega
  · exact h

theorem balanced_step (label : Label) : Balanced limit (step limit s label) := by
  have hlt := limit.toNat_lt
  have hlimit := h.2
  cases label with
  | reservation => simpa [Balanced, step, State.total, held] using h
  | tryGrow i bytes =>
    refine h.act fun r hr => ?_
    dsimp only [held, Option.elim_some]
    split <;> exact ⟨rfl, hlimit⟩
  | exchange i spurious =>
    refine h.act fun r hr => ?_
    split
    · exact ⟨rfl, hlimit⟩
    · rename_i bytes current _
      have hexact := exchange_exact limit s r bytes current spurious
      unfold Pass.Exact at hexact
      simp only [held, Option.elim_some]
      split at hexact <;> omega
  | release i bytes =>
    refine h.act fun r hr => ?_
    split
    · exact ⟨rfl, hlimit⟩
    · simp only [released, held, Option.elim_some]
      omega
  | drop i =>
    refine h.act fun r hr => ?_
    split
    · exact ⟨rfl, hlimit⟩
    · simp only [released, held, Option.elim_none]
      split <;> omega

omit h in
/-- **Budgets are never overcommitted**, after any steps of any number of connections: the counter
is the sum of the reservations and within the limit, a release does not take more than it has,
`try_grow` succeeds only if the bytes fit and then counts exactly these, and without reservations
the counter is zero. -/
theorem budget_never_overcommits (limit : UInt64) (labels : List Label) :
    let s := Runs.run (step limit) ⟨0, []⟩ labels
    s.used = s.total ∧ s.used ≤ limit.toNat ∧
      (∀ r, some r ∈ s.reservations → r.bytes ≤ s.used ∧
        ∀ bytes current spurious,
          (exchange limit s r bytes current spurious).Exact limit s r bytes) ∧
      ((∀ r ∈ s.reservations, r = none) → s.used = 0) := by
  have hstart : Balanced limit ⟨0, []⟩ := ⟨rfl, Nat.zero_le _⟩
  have hrun := Runs.keeps (I := Balanced limit) (fun _ label hs => balanced_step hs label)
    hstart labels
  generalize Runs.run (step limit) ⟨0, []⟩ labels = s at hrun
  refine ⟨hrun.1, hrun.2, fun r hr => ⟨?_, exchange_exact limit s r⟩, fun hnone => ?_⟩
  · obtain ⟨i, hi⟩ := List.mem_iff_getElem?.mp hr
    exact hrun.bytes_le hi
  · rw [hrun.1, State.total, List.sum_eq_zero_iff_forall_eq_nat]
    simp only [List.forall_mem_map]
    exact fun r hr => by rw [hnone r hr]; rfl

end Lux.Budgets
