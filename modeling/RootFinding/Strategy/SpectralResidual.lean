import RootFinding.Checked
import RootFinding.Strategy.Basic
import RootFinding.Strategy.Tolerance

/-!
# Spectral residual steps

A step follows the residual itself, scaled by a spectral coefficient from the last step and the
change of the residual along it; no Jacobian is needed. Two trial points, ahead of and behind the
iterate, are tried in turn with ever smaller parts of the step, until the merit of one is not much
larger than the largest of the last merits. The last merits are kept in a ring of fixed size that
starts full of the first one.
-/

namespace RootFinding

structure SpectralResidual (σ R K : Type) where
  /-- The least size of a spectral coefficient. -/
  least : R
  /-- The largest size of a spectral coefficient. -/
  largest : R
  /-- The first spectral coefficient. -/
  first : R
  /-- How many merits are kept. -/
  memory : Int := 10
  /-- How much the merit has to decrease with the part of the step. -/
  decrease : R
  /-- The strongest reduction of a trial step. -/
  reduceMost : R
  /-- The weakest reduction of a trial step. -/
  reduceLeast : R
  /-- The power of the norm that is the merit. -/
  exponent : R
  /-- The caller's rule for how far a merit may lie above the largest one. -/
  tolerance : Option (ToleranceRule σ R K) := none
  innerLimit : Int := 1000

namespace SpectralResidual

structure State (R : Type) where
  /-- The spectral coefficient. -/
  spectral : R
  /-- The merit at the start of the solve. -/
  first : R
  /-- The last merits, as a ring. -/
  history : List R

variable {σ R K : Type}

def standard [OfScientific R] : SpectralResidual σ R K where
  least := 1e-10
  largest := 1e10
  first := 1.0
  decrease := 1e-4
  reduceMost := 0.1
  reduceLeast := 0.5
  exponent := 2.0

def name : String := "DFSane"

variable [Scalar R]

/-- Why the settings are refused. -/
def refusal? (a : SpectralResidual σ R K) : Option Refusal :=
  if !(0.0 < a.least ∧ a.least ≤ a.largest) then some .spectralBounds
  else if a.memory < 1 then some .historyLength
  else if !(0.0 < a.reduceMost ∧ a.reduceMost ≤ a.reduceLeast ∧ a.reduceLeast < 1.0) then
    some .reductionBounds
  else if a.innerLimit < 1 then some .innerLimit
  else none

/-- The merit of a residual of the given norm, infinite when it is not finite. -/
def merit (exponent norm : R) : R :=
  let f := Scalar.pow norm exponent
  if Scalar.isFinite f then f else Scalar.infinity

/-- The next trial by quadratic interpolation between two merits; infinite when the parabola has no
minimum ahead. -/
def interpolate (alpha new old : R) : Except Fault R :=
  let bottom := new + (2.0 * alpha - 1.0) * old
  if 0.0 < bottom then (Checked.square alpha).map fun square => square * old / bottom
  else .ok Scalar.infinity

variable [Entry R K]

/-- The spectral coefficient of a quotient, replaced when its size is out of bounds by a size that
fits the change of the residual. A coefficient is a real number, so an imaginary part is dropped. -/
def safeguard (a : SpectralResidual σ R K) (quotient : K) (change : R) : R :=
  let size := Entry.abs quotient
  if a.least ≤ size ∧ size ≤ a.largest then Entry.re quotient
  else Scalar.clamp (if 0.0 < change then 1.0 / change else Scalar.infinity) 1.0 1e5

def start (a : SpectralResidual σ R K) (c : Setup σ R K) (u fu : Vec K) :
    Except Fault (LinearSystem R K × State R) := do
  requireSquare name u fu
  let first := merit a.exponent (c.options.norm fu)
  return (.fresh none .standard,
    { spectral := a.first, first, history := List.replicate a.memory.toNat first })

/-- The tolerance of a step. -/
def toleranceAt (a : SpectralResidual σ R K) (x : StepContext R K) :
    Stepping σ R K (State R) R :=
  match a.tolerance with
  | some rule => Run.onWork (Workspace.call rule x)
  | none => return x.standardTolerance

/-- The search of one step: where it starts, its direction, and the merits it is judged by. -/
structure Search (R K : Type) where
  u : Vec K
  d : Vec K
  old : R
  /-- The largest merit that is kept, and the tolerance added. -/
  limit : R

/-- A trial point with its residual and merit. -/
structure Trial (R K : Type) where
  u : Vec K
  fu : Vec K
  merit : R

def Search.accepts (q : Search R K) (decrease alpha merit : R) : Bool :=
  merit ≤ q.limit - decrease * Scalar.square alpha * q.old

/-- The trial at a point. -/
def trialAt (a : SpectralResidual σ R K) (c : Setup σ R K) (u : Vec K) :
    Stepping σ R K (State R) (Trial R K) := do
  let fu ← Run.evaluate c u
  return { u, fu, merit := merit a.exponent (c.options.norm fu) }

/-- A reduced part of a step, by interpolation within the bounds on the reduction. -/
def reduce (a : SpectralResidual σ R K) (q : Search R K) (alpha merit : R) : Except Fault R := do
  let next ← interpolate alpha merit q.old
  return Scalar.clamp next (a.reduceMost * alpha) (a.reduceLeast * alpha)

/-- Searches from a trial at the part `ahead` of the step, with `behind` the part to try on the
other side. Answers the trial that is accepted and its part, negative on the other side. -/
def search (a : SpectralResidual σ R K) (c : Setup σ R K) (q : Search R K) :
    Nat → R → R → Trial R K → Stepping σ R K (State R) (Trial R K × R)
  | 0, _, _, _ => do
    Action.fail
      { kind := .stall
        values := [.text s!"Line search did not satisfy the non-monotone condition in {
          a.innerLimit} iterations."]
        flag := some 1
        named := [("σ_n", .real (← get).ext.spectral)] }
  | fuel + 1, ahead, behind, t => do
    if q.accepts a.decrease ahead t.merit then return (t, ahead)
    let nextAhead ← Action.ofFault (a.reduce q ahead t.merit)
    let t ← a.trialAt c (q.u - behind • q.d)
    if q.accepts a.decrease behind t.merit then return (t, -behind)
    let nextBehind ← Action.ofFault (a.reduce q behind t.merit)
    let t ← a.trialAt c (q.u + nextAhead • q.d)
    search a c q fuel nextAhead nextBehind t

/-- The spectral coefficient after a step from `u`, `fu` to a trial. -/
def nextSpectral (a : SpectralResidual σ R K) (u fu : Vec K) (t : Trial R K) : R :=
  let s := t.u - u
  let y := t.fu - fu
  let product := s.dot y
  let quotient := if Entry.isZero product then Entry.ofReal Scalar.infinity else s.dot s / product
  a.safeguard quotient y.norm

def step (a : SpectralResidual σ R K) (c : Setup σ R K) : Stepping σ R K (State R) Unit := do
  let r ← get
  let s := r.ext
  let old := merit a.exponent (c.options.norm r.fu)
  let largest := (Vec.maximum? (.ofList s.history)).getD s.first
  let d := (-s.spectral) • r.fu
  let tolerance ← a.toleranceAt { first := s.first, step := r.steps + 1, u := r.u, fu := r.fu }
  let q : Search R K := { u := r.u, d, old, limit := largest + tolerance }
  let t ← a.trialAt c (r.u + (1.0 : R) • d)
  let (t, alpha) ← a.search c q a.innerLimit.toNat 1.0 1.0 t
  Run.update fun s => { s with spectral := a.nextSpectral r.u r.fu t }
  modify fun x => { x with previous := r.u, du := d, alpha }
  Run.moveTo t.u t.fu
  Run.update fun s =>
    { s with history := s.history.set (r.steps % a.memory.toNat) t.merit }
  let _ ← Run.check

def strategy (a : SpectralResidual σ R K) : Strategy σ R K (State R) where
  name := name
  start := a.start
  step := a.step

end SpectralResidual

end RootFinding
