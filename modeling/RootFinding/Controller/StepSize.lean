import RootFinding.Action
import RootFinding.Checked

/-!
# Step size controller

An integral controller for pseudo-time steps. The error of a step gives a gain, which is held
between the reciprocals of the largest and the smallest change of the step size that is allowed; the
new size is the old one over the gain. A gain in the steady band leaves the size of an accepted step
alone. A rejected step goes back to a size that was recorded when the gain was formed.
-/

namespace RootFinding

structure StepController (R : Type) where
  /-- The strongest reduction of the step size in one step. -/
  qmin : R
  /-- The strongest growth of the step size in one step. -/
  qmax : R
  steadyMin : R
  steadyMax : R
  /-- The safety factor. -/
  gamma : R
  /-- The size that a rejected step goes back to. -/
  qold : R
  abstol : R
  reltol : R

namespace StepController

variable {R : Type}

def standard [OfScientific R] : StepController R where
  qmin := 0.2
  qmax := 10.0
  steadyMin := 1.0
  steadyMax := 1.0
  gamma := 0.9
  qold := 1e-4
  abstol := 1e-6
  reltol := 1e-3

variable [Scalar R]

/-- Why the settings of a controller are refused. -/
def refusal? (c : StepController R) : Option Refusal :=
  if !(0.0 < c.qmin ∧ c.qmin ≤ 1.0 ∧ 1.0 ≤ c.qmax) then some .gainLimits
  else if c.steadyMax < c.steadyMin then some .steadyBand
  else if c.gamma ≤ 0.0 then some .safetyFactor
  else if c.abstol < 0.0 ∨ c.reltol < 0.0 ∨ c.abstol + c.reltol ≤ 0.0 then
    some .errorTolerances
  else none

/-- The gain for an error that is not zero. -/
def gain (c : StepController R) (error : R) : R :=
  Scalar.clamp (error / c.gamma) (1.0 / c.qmax) (1.0 / c.qmin)

/-- The gain for an error. Unless the error is zero this records the size to go back to. -/
def stepsize (error alpha : R) : Action Fault (StepController R) R := do
  let c ← get
  if Scalar.same error 0.0 then return 1.0 / c.qmax
  match Checked.div alpha (c.gain error) with
  | .ok back =>
    set { c with qold := back }
    return c.gain error
  | .error f => throw f

def accepts (error : R) : Bool := error ≤ 1.0

/-- The step size after an accepted step. -/
def afterAccept (c : StepController R) (alpha q : R) : Except Fault R :=
  Checked.div alpha (if c.steadyMin ≤ q ∧ q ≤ c.steadyMax then 1.0 else q)

/-- The step size after a rejected step. -/
def afterReject (c : StepController R) : R := c.qold

/-- The step size after a step with the given error, and whether the step is accepted. -/
def update (error alpha : R) : Action Fault (StepController R) (R × Bool) := do
  let q ← stepsize error alpha
  let c ← get
  if accepts error then
    match c.afterAccept alpha q with
    | .ok next => return (next, true)
    | .error f => throw f
  else return (c.afterReject, false)

end StepController

end RootFinding
