import RootFinding.LineSearch.Search
import RootFinding.Strategy.Basic

/-!
# Newton steps

A step solves a linear system for a direction and moves against it as far as the line search says.
The system is that of the Jacobian itself, for as many equations as unknowns, or that of the normal
equations, which also serves least squares. An old Jacobian is used again, with its factors, as long
as the policy for it allows; `way` is the way of the iterate since the last new one.
-/

namespace RootFinding

/-- The system that gives the direction. -/
inductive NewtonForm where
  | direct
  | normal
  deriving DecidableEq, Repr

structure Newton (σ R K : Type) where
  form : NewtonForm
  scheme : String := "2-point"
  /-- Whether the Jacobian is formed, not only its products. -/
  concrete : Bool := true
  choice : SystemChoice R := .byMatrix
  search : SearchChoice σ R K
  reuse : Bool := false
  reuseTolerance : R

namespace Newton

structure State (σ R K : Type) where
  jacobians : JacobianSettings R
  search : LineSearch σ R K
  way : Vec K
  /-- The norm of the residual at the start of the last step. -/
  previousNorm : R

variable {σ R K : Type}

def standard [OfScientific R] (form : NewtonForm) : Newton σ R K where
  form := form
  search := .configured .standard
  reuseTolerance := 0.1

def name (a : Newton σ R K) : String :=
  match a.form with
  | .direct => "NewtonRaphson"
  | .normal => "GaussNewton"

variable [Scalar R]

/-- The line search, unless the settings are refused. -/
def validate (a : Newton σ R K) : Except Fault (LineSearch σ R K) :=
  if a.reuseTolerance < 0.0 then .error (.refused .negativeReuseTolerance) else a.search.search

variable [Entry R K]

def start (a : Newton σ R K) (c : Setup σ R K) (u fu : Vec K) :
    Except Fault (LinearSystem R K × State σ R K) := do
  if a.form = .direct then requireSquare a.name u fu
  let scheme ← Scheme.ofName a.scheme
  let search ← a.validate
  let system ← a.choice.system (c.problem.jacobian.isNone && !a.concrete)
  let jacobians : JacobianSettings R :=
    { scheme, concrete := a.concrete, reuse := a.reuse, reuseTolerance := a.reuseTolerance }
  return (system, { jacobians, search, way := u.zerosLike, previousNorm := c.options.norm fu })

def systemMatrix (a : Newton σ R K) (J : Matrix R K) : Matrix R K :=
  match a.form with
  | .direct => J
  | .normal => J.gram

/-- The right-hand side for the stored Jacobian. -/
def rightSide (a : Newton σ R K) (J : Option (Matrix R K)) (fu : Vec K) : Except Fault (Vec K) :=
  match a.form, J with
  | .direct, _ => .ok fu
  | .normal, some J => J.applyTranspose fu
  | .normal, none => .error .unfitSystem

/-- Makes and factorises a new Jacobian, if the policy asks for one. -/
def renew (a : Newton σ R K) (c : Setup σ R K) : Stepping σ R K (State σ R K) Unit := do
  let r ← get
  let residual := c.options.norm r.fu
  let s := r.ext
  if s.jacobians.needsRebuild r.work.jacobian residual s.previousNorm (c.options.norm s.way) then
    let J ← Run.onWork (c.problem.jacobianAt s.jacobians r.u (some r.fu))
    Run.onWork (LinearSystem.factorize c.backend (a.systemMatrix J))
    Run.update fun s => { s with way := r.u.zerosLike }
  Run.update fun s => { s with previousNorm := residual }

/-- The direction against which the step goes. -/
def direction (a : Newton σ R K) (c : Setup σ R K) : Stepping σ R K (State σ R K) (Vec K) := do
  let r ← get
  let b ← Action.ofFault (a.rightSide r.work.jacobian r.fu)
  Run.onWork (LinearSystem.solve c.backend c.problem.evaluate b)

/-- Moves by a part of a step and adds to the way. -/
def advance (c : Setup σ R K) (du : Vec K) (alpha : R) :
    Stepping σ R K (State σ R K) Unit := do
  let before := (← get).u
  let u := before - alpha • du
  modify fun r => { r with previous := before, du, alpha }
  let fu ← Run.evaluate c u
  Run.moveTo u fu
  let way ← Action.ofFault ((← get).ext.way.increase (u - before))
  Run.update fun s => { s with way }

def step (a : Newton σ R K) (c : Setup σ R K) : Stepping σ R K (State σ R K) Unit := do
  a.renew c
  let du ← a.direction c
  let r ← get
  let alpha ← Run.onWork (r.ext.search.search c.problem.evaluate ⟨r.u, r.fu, du⟩)
  advance c du alpha
  let _ ← Run.check

def strategy (a : Newton σ R K) : Strategy σ R K (State σ R K) where
  name := a.name
  start := a.start
  step := a.step

end Newton

end RootFinding
