/-!
# Iteration up to a fixed point

A step is repeated until it changes nothing. What is kept of the iteration is the fixed point and
the number of passes, which counts the last one too, the pass that finds nothing to change. The
caller gives a bound on the passes; `step_stabilize` says that a result reached in fewer passes is
fixed.
-/

namespace TopDown

/-- A value that an iteration ended with, and the number of passes that it took. -/
structure Stable (α : Type) where
  value : α
  passes : Nat

/-- Repeats a step until it changes nothing, or until `bound` further passes have been made after
the given number of passes. -/
def stabilizeAfter {α : Type} [DecidableEq α] (step : α → α) (passes : Nat) :
    (bound : Nat) → α → Stable α
  | 0, a => ⟨a, passes⟩
  | bound + 1, a =>
    let b := step a
    if b = a then ⟨a, passes + 1⟩ else stabilizeAfter step (passes + 1) bound b

/-- Repeats a step until it changes nothing, with `bound` passes at most. -/
def stabilize {α : Type} [DecidableEq α] (step : α → α) (bound : Nat) (a : α) : Stable α :=
  stabilizeAfter step 0 bound a

section

variable {α : Type} [DecidableEq α] (step : α → α)

/-- An iteration that ends before its bound ends with a fixed point. -/
theorem step_stabilizeAfter {passes bound : Nat} {a : α}
    (h : (stabilizeAfter step passes bound a).passes < passes + bound) :
    step (stabilizeAfter step passes bound a).value =
      (stabilizeAfter step passes bound a).value := by
  induction bound generalizing passes a with
  | zero => simp [stabilizeAfter] at h
  | succ bound ih =>
    rw [stabilizeAfter] at h ⊢
    split
    · next heq => exact heq
    · next hne =>
      rw [if_neg hne] at h
      exact ih (by omega)

/-- An iteration that ends before its bound ends with a fixed point. -/
theorem step_stabilize {bound : Nat} {a : α} (h : (stabilize step bound a).passes < bound) :
    step (stabilize step bound a).value = (stabilize step bound a).value :=
  step_stabilizeAfter step (by simpa [stabilize] using h)

/-- A property that every step keeps holds of the result. -/
theorem stabilizeAfter_induction {P : α → Prop} (hstep : ∀ a, P a → P (step a))
    {passes bound : Nat} {a : α} (ha : P a) : P (stabilizeAfter step passes bound a).value := by
  induction bound generalizing passes a with
  | zero => exact ha
  | succ bound ih =>
    rw [stabilizeAfter]
    split
    · exact ha
    · exact ih (hstep a ha)

end

end TopDown
