/-
Deterministic labelled machines: a step function folded over a list of labels, and the two rules every run property of
this development is derived from.
- `run_of_step`: a predicate that every step admitted by a guard keeps holds at the end of a run whose steps all meet it
  (`Along`).
- `along_append`: a run that meets the guard meets it on every part, so "in every state reached" is "at the end of
  every prefix".
Outcomes the machine does not control (which write fails, which peer answers first) are part of the label.
-/
import Mathlib

namespace Kdb.Machine

variable {σ ο : Type*}

/-- the state after a list of labels -/
def run (step : σ → ο → σ) (s : σ) (ops : List ο) : σ := ops.foldl step s

/-- the guard `P` holds at every step of the run: of the state before the step and of its label -/
def Along (step : σ → ο → σ) (P : σ → ο → Prop) : σ → List ο → Prop
  | _, [] => True
  | s, o :: ops => P s o ∧ Along step P (step s o) ops

variable (step : σ → ο → σ) (P : σ → ο → Prop) (s : σ)

@[simp] theorem run_nil : run step s [] = s := rfl

@[simp] theorem run_cons (o : ο) (ops : List ο) : run step s (o :: ops) = run step (step s o) ops := rfl

theorem run_append (ops₁ ops₂ : List ο) : run step s (ops₁ ++ ops₂) = run step (run step s ops₁) ops₂ :=
  List.foldl_append

@[simp] theorem along_nil : Along step P s [] := trivial

@[simp] theorem along_cons (o : ο) (ops : List ο) : Along step P s (o :: ops) ↔ P s o ∧ Along step P (step s o) ops := Iff.rfl

theorem along_append (ops₁ ops₂ : List ο) :
    Along step P s (ops₁ ++ ops₂) ↔ Along step P s ops₁ ∧ Along step P (run step s ops₁) ops₂ := by
  induction ops₁ generalizing s with
  | nil => simp
  | cons o ops ih => simp [ih, and_assoc]

instance decidableAlong [∀ s o, Decidable (P s o)] : ∀ (s : σ) (ops : List ο), Decidable (Along step P s ops)
  | _, [] => isTrue trivial
  | s, o :: ops => @instDecidableAnd _ _ _ (decidableAlong (step s o) ops)

variable {step P}

/-- **Run rule.** What every admitted step keeps, an admitted run keeps. -/
theorem run_of_step {I : σ → Prop} (hstep : ∀ s o, P s o → I s → I (step s o)) {s : σ} {ops : List ο}
    (hP : Along step P s ops) (hs : I s) : I (run step s ops) := by
  induction ops generalizing s with
  | nil => exact hs
  | cons o ops ih => exact ih hP.2 (hstep s o hP.1 hs)

theorem run_of_step_all {I : σ → Prop} (hstep : ∀ s o, I s → I (step s o)) {s : σ} (ops : List ο) (hs : I s) :
    I (run step s ops) := by
  induction ops generalizing s with
  | nil => exact hs
  | cons o ops ih => exact ih (hstep s o hs)

end Kdb.Machine
