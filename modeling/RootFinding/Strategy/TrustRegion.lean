import RootFinding.Controller.TrustRadius
import RootFinding.Strategy.Basic
import RootFinding.Strategy.Dogleg

/-!
# Trust region

A step is a dogleg step within the trust radius. The ratio of the actual to the predicted reduction
of the residual decides whether it is taken and how the radius changes. The linear model of the
residual is kept until a step is taken.
-/

namespace RootFinding

structure TrustRegion (R : Type) where
  radius : RadiusSettings R
  scheme : String := "2-point"
  choice : SystemChoice R := .byMatrix

namespace TrustRegion

structure State (R K : Type) where
  jacobians : JacobianSettings R
  radius : TrustRadius R
  /-- Whether the next step makes a new model. -/
  renew : Bool := true
  model : Option (LinearModel K) := none

variable {σ R K : Type}

def standard [OfScientific R] : TrustRegion R where
  radius := .standard

def name : String := "TrustRegion"

variable [Scalar R] [Entry R K]

def start (a : TrustRegion R) (c : Setup σ R K) (u fu : Vec K) :
    Except Fault (LinearSystem R K × State R K) := do
  let (system, scheme) ← prepare c.problem a.scheme a.choice
  return (system,
    { jacobians := { scheme, reuseTolerance := 0.1 }, radius := .ofStart a.radius u fu.norm })

/-- Makes a new model at the current iterate. -/
def remodel (c : Setup σ R K) : Stepping σ R K (State R K) Unit := do
  let r ← get
  let J ← Run.onWork (c.problem.jacobianAt r.ext.jacobians r.u (some r.fu))
  Run.onWork (LinearSystem.factorize c.backend J)
  let x ← Run.onWork (LinearSystem.solve c.backend c.problem.evaluate r.fu)
  let gradient ← Action.ofFault (J.applyTranspose r.fu)
  let image ← Run.onWork (J.apply c.problem.evaluate gradient)
  Run.update fun s => { s with renew := false, model := some { newton := -x, gradient, image } }

/-- The reduction from `before` to `after` over the one to `predicted`, half the squares of the
norms being compared; minus infinity when no reduction is predicted. -/
def reductionRatio (before after predicted : Vec K) : R :=
  let loss (f : Vec K) : R := 0.5 * Scalar.square f.norm
  let expected := loss before - loss predicted
  if 0.0 < expected then (loss before - loss after) / expected else -Scalar.infinity

/-- The kept model and Jacobian. -/
def kept (r : Run σ R K (State R K)) : Except Fault (LinearModel K × Matrix R K) :=
  match r.ext.model, r.work.jacobian with
  | some m, some J => .ok (m, J)
  | _, _ => .error .noFactors

/-- Tells the ratio of a trial step to the controller of the radius. -/
def judge (ratio length : R) : Stepping σ R K (State R K) Bool :=
  Run.onExt ((TrustRadius.update ratio length).within State.radius
    fun radius s => { s with radius })

/-- A trial step: where it leads, the residual there, and the ratio of the reductions. -/
structure Trial (R K : Type) where
  u : Vec K
  fu : Vec K
  du : Vec K
  ratio : R

/-- The trial step of the kept model. -/
def trial (c : Setup σ R K) : Stepping σ R K (State R K) (Trial R K) := do
  let r ← get
  let (m, J) ← Action.ofFault (kept r)
  let du ← Action.ofFault (m.dogleg r.ext.radius.radius)
  let u := r.u + du
  let fu ← Run.evaluate c u
  let change ← Run.onWork (J.apply c.problem.evaluate du)
  return { u, fu, du, ratio := reductionRatio r.fu fu (r.fu + change) }

/-- Takes a trial step if the radius controller accepts it. -/
def conclude (t : Trial R K) : Stepping σ R K (State R K) Unit := do
  let before := (← get).u
  let accepted ← judge t.ratio t.du.norm
  modify fun r => { r with alpha := r.ext.radius.radius }
  if accepted then
    modify fun r => { r with previous := before, du := t.du }
    Run.moveTo t.u t.fu
    Run.update fun s => { s with renew := true }
  else
    Run.notice ("Step rejected: ρ = " ++ Written.write (.general 4) t.ratio ++
      ", trust radius -> " ++ Written.write (.general 4) (← get).alpha)

/-- The trial step of the kept model or of a new one. -/
def propose (c : Setup σ R K) : Stepping σ R K (State R K) (Trial R K) := do
  if (← get).ext.renew then remodel c
  trial c

def step (c : Setup σ R K) : Stepping σ R K (State R K) Unit := do
  conclude (← propose c)
  let _ ← Run.check

def strategy (a : TrustRegion R) : Strategy σ R K (State R K) where
  name := name
  start := a.start
  step := step

end TrustRegion

end RootFinding
