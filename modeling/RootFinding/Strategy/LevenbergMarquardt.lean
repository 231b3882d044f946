import RootFinding.Checked
import RootFinding.Strategy.Basic

/-!
# Levenberg-Marquardt steps

A step solves the normal equations with a damping on their diagonal, scaled by the largest curvature
seen in each coordinate. A second order correction can be added, which must then be small beside the
step. A step may go uphill if it goes on in the direction of the last one that was taken. The
damping falls after a step that is taken and rises after one that is not.
-/

namespace RootFinding

/-- The second order correction of a step. -/
structure Geodesic (R : Type) where
  active : Bool := false
  /-- The part of the step along which the residual is differentiated again. -/
  difference : R
  /-- The largest ratio of twice the correction to the step. -/
  bound : R

structure LevenbergMarquardt (R : Type) where
  scheme : String := "2-point"
  choice : SystemChoice R := .byMatrix
  damping : R
  increase : R
  decrease : R
  /-- The least scaling of a coordinate. -/
  scaling : R
  geodesic : Geodesic R
  /-- The exponent of the uphill rule. -/
  uphill : R

namespace LevenbergMarquardt

structure State (R K : Type) where
  jacobians : JacobianSettings R
  damping : R
  /-- What the damping is multiplied with after the step. -/
  factor : R
  /-- The scaling of the coordinates. -/
  scaling : Vec K
  /-- The transposed Jacobian times the Jacobian. -/
  gram : Option (Matrix R K) := none
  /-- The transposed Jacobian times the residual. -/
  gradient : Option (Vec K) := none
  /-- The last velocity whose step was taken. -/
  velocity : Option (Vec K) := none
  /-- The norm of the residual at the iterate. -/
  loss : R
  /-- Whether the next step makes a new Jacobian. -/
  renew : Bool := true

variable {σ R K : Type}

def standard [OfScientific R] : LevenbergMarquardt R where
  damping := 1.0
  increase := 2.0
  decrease := 3.0
  scaling := 1e-8
  geodesic := { difference := 0.1, bound := 0.75 }
  uphill := 1.0

def name : String := "LevenbergMarquardt"

variable [Scalar R]

/-- Why the settings are refused. -/
def refusal? (a : LevenbergMarquardt R) : Option Refusal :=
  if a.damping ≤ 0.0 then some .initialDamping
  else if a.increase ≤ 1.0 ∨ a.decrease ≤ 1.0 then some .dampingFactors
  else if a.scaling ≤ 0.0 then some .scalingFloor
  else none

variable [Entry R K]

def start (a : LevenbergMarquardt R) (c : Setup σ R K) (u fu : Vec K) :
    Except Fault (LinearSystem R K × State R K) := do
  let (system, scheme) ← prepare c.problem a.scheme a.choice
  return (system,
    { jacobians := { scheme, reuseTolerance := 0.1 }
      damping := a.damping
      factor := a.increase
      scaling := Vec.replicate u.size (Entry.ofReal a.scaling)
      loss := c.options.norm fu })

/-- Makes a new Jacobian and raises the scaling to its curvatures. -/
def renewJacobian (c : Setup σ R K) : Stepping σ R K (State R K) Unit := do
  let r ← get
  let J ← Run.onWork (c.problem.jacobianAt r.ext.jacobians r.u (some r.fu))
  Run.update fun s =>
    { s with
      gram := some J.gram
      scaling := Vec.zipWith Entry.maximum s.scaling J.gram.diagonal
      renew := false }

/-- The kept Jacobian and its gram matrix. -/
def kept (r : Run σ R K (State R K)) : Except Fault (Matrix R K × Matrix R K) :=
  match r.work.jacobian, r.ext.gram with
  | some J, some A => .ok (J, A)
  | _, _ => .error .noFactors

/-- The step of the damped normal equations. -/
def velocity (c : Setup σ R K) (J A : Matrix R K) : Stepping σ R K (State R K) (Vec K) := do
  let r ← get
  let gradient ← Action.ofFault (J.applyTranspose r.fu)
  Run.update fun s => { s with gradient := some gradient }
  Run.onWork (LinearSystem.factorize c.backend (A.addDiagonal (r.ext.damping • r.ext.scaling)))
  let x ← Run.onWork (LinearSystem.solve c.backend c.problem.evaluate gradient)
  return -x

/-- The second order correction of a velocity; none where the residual ahead is not finite. -/
def correction (a : LevenbergMarquardt R) (c : Setup σ R K) (J : Matrix R K) (v : Vec K) :
    Stepping σ R K (State R K) (Option (Vec K)) := do
  let r ← get
  let h := a.geodesic.difference
  let ahead ← Run.evaluate c (r.u + h • v)
  if !ahead.isFinite then return none
  let twice ← Action.ofFault (Checked.div 2.0 h)
  let slope ← Run.onWork (J.apply c.problem.evaluate v)
  let b ← Action.ofFault (J.applyTranspose (twice • ((ahead - r.fu).divideBy h - slope)))
  let x ← Run.onWork (LinearSystem.solve c.backend c.problem.evaluate b)
  return some (-x)

/-- The step for a velocity, if its correction is small enough. -/
def correctedStep (a : LevenbergMarquardt R) (c : Setup σ R K) (J : Matrix R K) (v : Vec K) :
    Stepping σ R K (State R K) (Option (Vec K)) := do
  if !a.geodesic.active then return some v
  match ← a.correction c J v with
  | none => return none
  | some w =>
    if 2.0 * w.norm ≤ a.geodesic.bound * v.norm then return some (v + w.divideBy 2.0)
    return none

/-- The cosine of the angle between a velocity and the last one that was taken; zero without one. -/
def cosine (v : Vec K) (last : Option (Vec K)) : R :=
  match last with
  | none => 0.0
  | some w =>
    if Scalar.same v.norm 0.0 then 0.0 else Entry.re (v.dot w) / (v.norm * w.norm)

/-- Whether a step with the given loss is taken. -/
def accepts (a : LevenbergMarquardt R) (s : State R K) (v : Vec K) (loss : R) :
    Except Fault Bool := do
  let turn := cosine v s.velocity
  if !Scalar.isFinite loss then return false
  let weight ← Checked.pow (1.0 - turn) a.uphill
  return weight * loss ≤ s.loss

/-- Tries a step for a velocity, and answers whether it is taken. -/
def attempt (a : LevenbergMarquardt R) (c : Setup σ R K) (v du : Vec K) :
    Stepping σ R K (State R K) Bool := do
  let before := (← get).u
  let u := before + du
  let fu ← Run.evaluate c u
  let loss := c.options.norm fu
  let taken ← Action.ofFault (a.accepts (← get).ext v loss)
  if taken then
    modify fun r => { r with previous := before, du }
    Run.moveTo u fu
    Run.update fun s =>
      { s with velocity := some v, loss, factor := 1.0 / a.decrease, renew := true }
  return taken

/-- Reports the damping of the step and adapts it for the next one. -/
def adapt (a : LevenbergMarquardt R) : Stepping σ R K (State R K) Unit :=
  modify fun r =>
    { r with
      alpha := r.ext.damping
      ext := { r.ext with damping := r.ext.damping * r.ext.factor, factor := a.increase } }

/-- Ends a step: reports it if it was not taken, adapts the damping and tests the iterate. -/
def settle (a : LevenbergMarquardt R) (taken : Bool) : Stepping σ R K (State R K) Unit := do
  if !taken then
    Run.notice ("Step rejected: λ = " ++ Written.write (.general 4) (← get).ext.damping)
  a.adapt
  let _ ← Run.check

def step (a : LevenbergMarquardt R) (c : Setup σ R K) : Stepping σ R K (State R K) Unit := do
  if (← get).ext.renew then renewJacobian c
  let (J, A) ← Action.ofFault (kept (← get))
  let v ← velocity c J A
  let taken ← match ← a.correctedStep c J v with
    | some du => a.attempt c v du
    | none => pure false
  a.settle taken

def strategy (a : LevenbergMarquardt R) : Strategy σ R K (State R K) where
  name := name
  start := a.start
  step := a.step

end LevenbergMarquardt

end RootFinding
