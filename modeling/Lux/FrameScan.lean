import Lux.ByteCodec

/-!
# Scanning a log of frames

A log is a concatenation of frames. A reader looks at the bytes from a frame
start onwards and answers with the frame and the bytes after it, with `none`
when the bytes end inside a frame, or with an error. `scan` is the recovery
loop over such a reader: it folds every frame into a state and stops at the
end, at the first incomplete frame, or at the first error.

The second half cuts a log at an arbitrary byte. `take_flatMap` splits what is
left into the frames that lie completely before the cut and the bytes of the
one frame the cut falls in.
-/

namespace FrameScan

open ByteCodec List

abbrev Reader (α : Type) := Bytes → IoResult (Option (α × Bytes))

/-- Where a scan stopped. `torn` holds the bytes of an incomplete last frame
and is empty when the log ended on a frame boundary. -/
structure Outcome (σ : Type) where
  state : σ
  torn : Bytes
  deriving DecidableEq, Repr

section Scan

variable {α σ : Type}

/-- The loop with an explicit bound on the number of frames. `step` sees the
bytes from the start of its frame, which fix the frame's offset. -/
def scanFuel (read : Reader α) (step : σ → Bytes → α → IoResult σ) :
    Nat → Bytes → σ → IoResult (Outcome σ)
  | 0, input, state => .ok ⟨state, input⟩
  | fuel+1, input, state =>
    if input.isEmpty then
      .ok ⟨state, []⟩
    else
      match read input with
      | .error error => .error error
      | .ok none => .ok ⟨state, input⟩
      | .ok (some (frame, rest)) =>
        match step state input frame with
        | .error error => .error error
        | .ok next => scanFuel read step fuel rest next

/-- A log of `n` bytes holds at most `n` frames. -/
def scan (read : Reader α) (step : σ → Bytes → α → IoResult σ)
    (input : Bytes) (state : σ) : IoResult (Outcome σ) :=
  scanFuel read step input.length input state

/-- A reader that never returns a frame without consuming a byte. -/
def Consumes (read : Reader α) : Prop :=
  ∀ input frame rest, read input = .ok (some (frame, rest)) →
    rest.length < input.length

variable {read : Reader α} {step : σ → Bytes → α → IoResult σ} {input : Bytes}

/-- More fuel than bytes changes nothing. -/
theorem scanFuel_eq_scan (hread : Consumes read) {fuel : Nat} (hfuel : input.length ≤ fuel)
    (state : σ) : scanFuel read step fuel input state = scan read step input state := by
  -- Both sides are compared with every larger amount of fuel at once.
  suffices h : ∀ n m, ∀ input : Bytes, input.length ≤ n → input.length ≤ m →
      ∀ state, scanFuel read step n input state = scanFuel read step m input state from
    h fuel input.length input hfuel le_rfl state
  intro n
  induction n with
  | zero =>
    intro m input hn _ state
    have hnil : input = [] := length_eq_zero_iff.mp (by omega)
    cases m <;> simp [scanFuel, hnil]
  | succ n ih =>
    intro m input hn hm state
    cases m with
    | zero =>
      have hnil : input = [] := length_eq_zero_iff.mp (by omega)
      simp [scanFuel, hnil]
    | succ m =>
      simp only [scanFuel]
      cases hframe : read input with
      | error error => rfl
      | ok answer =>
        cases answer with
        | none => rfl
        | some pair =>
          obtain ⟨frame, rest⟩ := pair
          have hlt := hread input frame rest hframe
          cases hstep : step state input frame with
          | error error => simp [hstep]
          | ok next =>
            simp only [hstep, ih m rest (by omega) (by omega) next]

@[simp] theorem scan_nil (state : σ) : scan read step [] state = .ok ⟨state, []⟩ := rfl

private theorem scan_unfold (hne : input ≠ []) (state : σ) :
    scan read step input state =
      match read input with
      | .error error => .error error
      | .ok none => .ok ⟨state, input⟩
      | .ok (some (frame, rest)) =>
        match step state input frame with
        | .error error => .error error
        | .ok next => scanFuel read step (input.length - 1) rest next := by
  cases input with
  | nil => exact absurd rfl hne
  | cons b rest => rfl

/-- A complete frame at the head is folded into the state. -/
theorem scan_frame (hread : Consumes read) {rest : Bytes} {frame : α} {state next : σ}
    (hframe : read input = .ok (some (frame, rest))) (hstep : step state input frame = .ok next) :
    scan read step input state = scan read step rest next := by
  have hlt := hread input frame rest hframe
  have hne : input ≠ [] := by
    intro h
    simp [h] at hlt
  rw [scan_unfold hne]
  simp only [hframe, hstep]
  exact scanFuel_eq_scan hread (by omega) next

/-- An incomplete frame ends the scan and leaves the state as it is. -/
theorem scan_torn (hne : input ≠ []) (htorn : read input = .ok none) (state : σ) :
    scan read step input state = .ok ⟨state, input⟩ := by
  rw [scan_unfold hne]
  simp [htorn]

/-- A frame the reader rejects rejects the log. -/
theorem scan_read_error (hne : input ≠ []) {error : IoError} (herror : read input = .error error)
    (state : σ) : scan read step input state = .error error := by
  rw [scan_unfold hne]
  simp [herror]

/-- A frame that the fold rejects rejects the log. -/
theorem scan_step_error {rest : Bytes} (hne : input ≠ []) {frame : α} {state : σ} {error : IoError}
    (hframe : read input = .ok (some (frame, rest)))
    (herror : step state input frame = .error error) :
    scan read step input state = .error error := by
  rw [scan_unfold hne]
  simp [hframe, herror]

end Scan

section Cut

variable {α : Type}

/-- The frames that lie completely before byte `n` of the log. -/
def completeFrames (write : α → Bytes) : List α → Nat → List α
  | [], _ => []
  | frame :: frames, n =>
    if (write frame).length ≤ n then
      frame :: completeFrames write frames (n - (write frame).length)
    else
      []

/-- The frames of the log from the one that byte `n` falls in. -/
def remainingFrames (write : α → Bytes) : List α → Nat → List α
  | [], _ => []
  | frame :: frames, n =>
    if (write frame).length ≤ n then
      remainingFrames write frames (n - (write frame).length)
    else
      frame :: frames

/-- What a cut at byte `n` leaves of the frame it falls in. -/
def tornTail (write : α → Bytes) : List α → Nat → Bytes
  | [], _ => []
  | frame :: frames, n =>
    if (write frame).length ≤ n then
      tornTail write frames (n - (write frame).length)
    else
      (write frame).take n

variable (write : α → Bytes) (frames : List α)

/-- **The cut.**  A log cut at byte `n` is its complete frames followed by the
torn tail. -/
theorem take_flatMap (n : Nat) : (frames.flatMap write).take n =
      (completeFrames write frames n).flatMap write ++ tornTail write frames n := by
  induction frames generalizing n with
  | nil => simp [completeFrames, tornTail]
  | cons frame frames ih =>
    by_cases hfit : (write frame).length ≤ n
    · simp [completeFrames, tornTail, hfit, take_append, ih]
    · have hzero : n - (write frame).length = 0 := by omega
      simp [completeFrames, tornTail, hfit, take_append, hzero]

theorem completeFrames_append_remaining (n : Nat) :
    completeFrames write frames n ++ remainingFrames write frames n = frames := by
  induction frames generalizing n with
  | nil => rfl
  | cons frame frames ih =>
    by_cases hfit : (write frame).length ≤ n
    · simp [completeFrames, remainingFrames, hfit, ih]
    · simp [completeFrames, remainingFrames, hfit]

/-- The torn tail is a proper prefix of the first remaining frame. -/
theorem tornTail_eq (n : Nat) :
    (remainingFrames write frames n = [] ∧ tornTail write frames n = []) ∨
      ∃ frame frames', remainingFrames write frames n = frame :: frames' ∧
        ∃ m < (write frame).length, tornTail write frames n = (write frame).take m := by
  induction frames generalizing n with
  | nil => exact .inl ⟨rfl, rfl⟩
  | cons frame frames ih =>
    by_cases hfit : (write frame).length ≤ n
    · simpa [remainingFrames, tornTail, hfit] using ih (n - (write frame).length)
    · refine .inr ⟨frame, frames, by simp [remainingFrames, hfit], n, by omega, ?_⟩
      simp [tornTail, hfit]

/-- No longer prefix of the log lies before the cut. -/
theorem completeFrames_longest (n k : Nat) (hfit : ((frames.take k).flatMap write).length ≤ n) :
    frames.take k <+: completeFrames write frames n := by
  induction frames generalizing n k with
  | nil => simp [completeFrames]
  | cons frame frames ih =>
    cases k with
    | zero => simp
    | succ k =>
      simp only [take_succ_cons, flatMap_cons, length_append] at hfit
      have hhead : (write frame).length ≤ n := by omega
      have htail := ih (n - (write frame).length) k (by omega)
      simpa [completeFrames, hhead] using htail

end Cut

end FrameScan
