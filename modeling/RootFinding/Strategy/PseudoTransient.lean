import RootFinding.Controller.ErrorEstimate
import RootFinding.Controller.StepSize
import RootFinding.Strategy.Basic

/-!
# Pseudo-transient continuation

A step is one implicit step in a pseudo-time whose size a controller adapts to an error estimate
from the last three iterates. With small sizes the iterate follows the flow against the residual,
with large ones a step is nearly a Newton step. A step that the controller rejects is not undone;
only the size goes back.
-/

namespace RootFinding

structure PseudoTransient (R : Type) where
  initial : R
  controller : StepController R
  scheme : String := "2-point"
  /-- Whether the Jacobian is formed, not only its products. -/
  concrete : Bool := true
  choice : SystemChoice R := .byMatrix

namespace PseudoTransient

structure State (R K : Type) where
  jacobians : JacobianSettings R
  controller : StepController R
  /-- The size of the next step. -/
  alpha : R
  alphaPrevious : R
  /-- The iterate before the previous one. -/
  beforePrevious : Vec K
  /-- The last error estimate. -/
  error : R

variable {σ R K : Type}

def standard [OfScientific R] : PseudoTransient R where
  initial := 1e-3
  controller := .standard

def name : String := "PseudoTransient"

variable [Scalar R]

/-- Why the settings are refused, apart from those of the controller. -/
def refusal? (a : PseudoTransient R) : Option Refusal :=
  if 0.0 < a.initial then none else some .initialStep

variable [Entry R K]

def start (a : PseudoTransient R) (c : Setup σ R K) (u fu : Vec K) :
    Except Fault (LinearSystem R K × State R K) := do
  requireSquare name u fu
  let (system, scheme) ← prepare c.problem a.scheme a.choice a.concrete
  let jacobians : JacobianSettings R := { scheme, concrete := a.concrete, reuseTolerance := 0.1 }
  return (system,
    { jacobians, controller := a.controller, alpha := a.initial, alphaPrevious := a.initial
      beforePrevious := u, error := 0.0 })

/-- The direction against which the step goes: the solution for the Jacobian with the reciprocal of
the step size on its diagonal. -/
def direction (c : Setup σ R K) : Stepping σ R K (State R K) (Vec K) := do
  let r ← get
  let J ← Run.onWork (c.problem.jacobianAt r.ext.jacobians r.u (some r.fu))
  let shift ← Action.ofFault (Checked.div 1.0 r.ext.alpha)
  let A ← Action.ofFault (J.shift shift)
  Run.onWork (LinearSystem.factorize c.backend A)
  Run.onWork (LinearSystem.solve c.backend c.problem.evaluate r.fu)

/-- The next step size for an error estimate, and whether the controller accepts the step. -/
def control (error alpha : R) : Stepping σ R K (State R K) (R × Bool) :=
  Run.onExt <|
    ((StepController.update error alpha).mapError .fault).within State.controller
      fun controller s => { s with controller }

/-- Estimates the error of the step that was made and adapts the step size. -/
def adapt : Stepping σ R K (State R K) Unit := do
  let r ← get
  let s := r.ext
  let error ← Action.ofFault
    (estimateError ⟨r.u, r.previous, s.beforePrevious⟩ s.alpha s.alphaPrevious
      s.controller.abstol s.controller.reltol Vec.rms)
  Run.update fun s => { s with error }
  let (next, accepted) ← control error s.alpha
  if !accepted then
    Run.notice ("Pseudo-time step rejected: EEst = " ++ Written.write (.general 4) error ++
      ", α -> " ++ Written.write (.general 4) next)
  Run.update fun t =>
    { t with beforePrevious := r.previous, alphaPrevious := s.alpha, alpha := next }

def step (c : Setup σ R K) : Stepping σ R K (State R K) Unit := do
  let du ← direction c
  let before := (← get).u
  let u := before - du
  modify fun r => { r with previous := before, du, alpha := r.ext.alpha }
  let fu ← Run.evaluate c u
  Run.moveTo u fu
  if ← Run.check then return
  adapt

def strategy (a : PseudoTransient R) : Strategy σ R K (State R K) where
  name := name
  start := a.start
  step := step

end PseudoTransient

end RootFinding
