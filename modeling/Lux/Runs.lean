import Mathlib.Data.List.Basic

/-!
# Runs of a system

A system is a state and a step function over labels. A run folds a list of
labels; a run is safe for a condition when each of its steps meets the condition
in the state it is taken from. `invariant` is the induction over runs: what
holds at the start and is kept by every safe step holds wherever a safe run ends,
and hence in every state on its way.
-/

namespace Runs

variable {σ ι : Type} (step : σ → ι → σ) (ok : σ → ι → Prop)

/-- The state after a run. -/
def run (s : σ) (ops : List ι) : σ := ops.foldl step s

/-- Every step of the run meets the condition. -/
def Safe : σ → List ι → Prop
  | _, [] => True
  | s, op :: ops => ok s op ∧ Safe (step s op) ops

instance decidableSafe [∀ s op, Decidable (ok s op)] :
    ∀ (s : σ) (ops : List ι), Decidable (Safe step ok s ops)
  | _, [] => inferInstanceAs (Decidable True)
  | s, op :: ops =>
    have := decidableSafe (step s op) ops
    inferInstanceAs (Decidable (ok s op ∧ Safe step ok (step s op) ops))

variable {step ok}

@[simp] theorem run_nil (s : σ) : run step s [] = s := rfl

@[simp] theorem run_cons (s : σ) (op : ι) (ops : List ι) :
    run step s (op :: ops) = run step (step s op) ops := rfl

theorem run_append (s : σ) (first second : List ι) :
    run step s (first ++ second) = run step (run step s first) second := by
  simp [run]

theorem safe_append {s : σ} {first second : List ι} :
    Safe step ok s (first ++ second) ↔
      Safe step ok s first ∧ Safe step ok (run step s first) second := by
  induction first generalizing s with
  | nil => simp [Safe]
  | cons op ops ih => simp [Safe, ih, and_assoc]

/-- **The induction over safe runs.** -/
theorem invariant {I : σ → Prop} (hstep : ∀ s op, ok s op → I s → I (step s op))
    {s : σ} {ops : List ι} (hsafe : Safe step ok s ops) (hstart : I s) :
    I (run step s ops) := by
  induction ops generalizing s with
  | nil => exact hstart
  | cons op ops ih =>
    obtain ⟨hop, hrest⟩ := hsafe
    exact ih hrest (hstep s op hop hstart)

/-- The induction over all runs. -/
theorem keeps {I : σ → Prop} (hstep : ∀ s op, I s → I (step s op)) {s : σ} (hstart : I s)
    (ops : List ι) : I (run step s ops) := by
  induction ops generalizing s with
  | nil => exact hstart
  | cons op ops ih => exact ih (hstep s op hstart)

/-- **The simulation rule for safe runs.**  A relation that every safe step keeps relates the ends
of a safe run and of the same run of the other system. -/
theorem simulates {τ : Type} {step' : τ → ι → τ} {R : σ → τ → Prop}
    (hstep : ∀ s t op, R s t → ok s op → R (step s op) (step' t op))
    {s : σ} {t : τ} {ops : List ι} (hsafe : Safe step ok s ops) (hstart : R s t) :
    R (run step s ops) (run step' t ops) := by
  induction ops generalizing s t with
  | nil => exact hstart
  | cons op ops ih =>
    obtain ⟨hop, hrest⟩ := hsafe
    exact ih hrest (hstep s t op hstart hop)

/-- Conditions that agree wherever an invariant holds allow the same runs. -/
theorem safe_congr {ok' : σ → ι → Prop} {I : σ → Prop} (hkeep : ∀ s op, I s → I (step s op))
    (hagree : ∀ s op, I s → (ok s op ↔ ok' s op)) {s : σ} (hstart : I s) (ops : List ι) :
    Safe step ok s ops ↔ Safe step ok' s ops := by
  induction ops generalizing s with
  | nil => exact Iff.rfl
  | cons op ops ih => exact and_congr (hagree s op hstart) (ih (hkeep s op hstart))

end Runs
