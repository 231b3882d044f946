import RootFinding.Problem

/-!
# Tolerance rules

How far the merit of a step may lie above the largest of the last merits. The caller can bring a
rule of his own; the standard one shrinks with the square of the number of the step, so the
tolerances of all steps together stay bounded.
-/

namespace RootFinding

/-- What the rule for the tolerance of a step sees. -/
structure StepContext (R K : Type) where
  /-- The merit at the start of the solve. -/
  first : R
  /-- The number of the step, counted from one. -/
  step : Nat
  u : Vec K
  fu : Vec K

abbrev ToleranceRule (σ R K : Type) : Type := Callable σ R K (StepContext R K) R

/-- The tolerance of a step without a rule of the caller's. -/
def StepContext.standardTolerance {R K : Type} [Scalar R] (x : StepContext R K) : R :=
  x.first / Scalar.ofNat (x.step * x.step)

end RootFinding
