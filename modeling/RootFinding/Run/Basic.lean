import RootFinding.LinearSystem.Solve
import RootFinding.Termination
import RootFinding.Solution
import RootFinding.Report.Style
import RootFinding.Report.Text

/-!
# Runs

The state of a solve between its steps. A run owns the iterate, its residual, the counters and the
outcome so far; the strategy that makes the steps keeps its own state in `ext`. The iterate and its
residual change together, in `moveTo`, so a step that fails between a new point and its residual
leaves both as they were.
-/

namespace RootFinding

structure Options (R K : Type) where
  maxiters : Int := 1000
  abstol : R
  reltol : R
  termination : Termination R
  /-- The norm of the termination test and of the step control. -/
  norm : Vec K → R
  storeTrace : Bool := false
  /-- The last level of the report that is printed. -/
  displayLevel : Int := 0

def Options.standard {R K : Type} [Scalar R] [Entry R K] : Options R K where
  abstol := Scalar.defaultTolerance
  reltol := Scalar.defaultTolerance
  termination := .standard
  norm := Vec.norm

/-- What stays fixed during a solve. -/
structure Setup (σ R K : Type) where
  problem : Problem σ R K
  options : Options R K
  backend : Backend σ R K

structure Run (σ R K X : Type) where
  work : Workspace σ R K
  u : Vec K
  /-- The iterate before the last step. -/
  previous : Vec K
  /-- The residual at `u`. -/
  fu : Vec K
  /-- The direction of the last step. -/
  du : Vec K
  /-- What the last step reports as its damping. -/
  alpha : R
  steps : Nat := 0
  maxiters : Int
  /-- Whether the loop ends before the next step. -/
  stopped : Bool := false
  code : ReturnCode := .default
  error : Option (Failure R K) := none
  trace : List (TraceEntry R) := []
  checker : Checker R K
  styles : PrintStyles
  /-- The text printed so far. -/
  printed : String := ""
  ext : X

/-- An action on a run. -/
abbrev Stepping (σ R K X α : Type) : Type := Action (Thrown R K) (Run σ R K X) α

namespace Run

variable {σ R K X : Type}

/-- Whether the loop goes on. -/
def isActive (r : Run σ R K X) : Bool := !r.stopped && (r.steps : Int) < r.maxiters

def stats (r : Run σ R K X) : Stats where
  evaluations := r.work.evaluations
  jacobians := r.work.jacobians
  factorizations := r.work.system.factorizations
  solves := r.work.system.solves
  steps := r.steps

/-- An action of the shared parts of a solver. -/
def onWork {α : Type} (a : Work σ R K α) : Stepping σ R K X α :=
  a.within work fun work r => { r with work }

/-- An action on the strategy's own state. -/
def onExt {α : Type} (a : Action (Thrown R K) X α) : Stepping σ R K X α :=
  a.within ext fun ext r => { r with ext }

/-- Changes the strategy's own state. -/
def update (f : X → X) : Stepping σ R K X Unit := modify fun r => { r with ext := f r.ext }

/-- Moves to an iterate with its residual. -/
def moveTo (u fu : Vec K) : Stepping σ R K X Unit := modify fun r => { r with u, fu }

variable [Scalar R] [Entry R K]

/-- The residual at a point. -/
def evaluate (c : Setup σ R K) (u : Vec K) : Stepping σ R K X (Vec K) :=
  onWork (c.problem.evaluate u)

/-- Prints a line of the report. -/
def print (style text : String) : Stepping σ R K X Unit :=
  modify fun r =>
    let line : PrintLine R K := { text }
    { r with printed := r.printed ++ (r.styles.print style none line).text }

/-- Prints a notice, such as a step that was rejected. -/
def notice (text : String) : Stepping σ R K X Unit := print "notice" text

/-- Tests the current iterate. A solve that has converged is stopped as successful. -/
def check : Stepping σ R K X Bool := do
  let r ← get
  let converged ← (Checker.check r.fu r.u r.previous).within checker
    fun checker r => { r with checker }
  if converged then modify fun r => { r with code := .success, stopped := true }
  return converged

/-- The solution of a run as it stands. -/
def solution (p : Problem σ R K) (r : Run σ R K X) : Except Fault (Solution R K) := do
  let u ← p.toUser r.u p.guess.shape
  let residual ← p.residualToUser r.work.residualShape r.fu
  return { u, residual, code := r.code, stats := r.stats, error := r.error, trace := r.trace }

end Run

end RootFinding
