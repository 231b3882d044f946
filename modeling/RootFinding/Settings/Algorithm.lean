import RootFinding.Algorithm
import RootFinding.Settings.Options

/-!
# Algorithms by name

An algorithm from its name and named settings. Parts that have settings of their own are made and
checked first, then the algorithm itself.
-/

namespace RootFinding

variable {σ R K : Type} [Scalar R]

/-- The choice of a linear system: by the form of the matrix, by name, or with settings of its own.
-/
def SystemChoice.ofSetting : Setting σ R K → Except Fault (SystemChoice R)
  | .value .absent => .ok .byMatrix
  | .value x => .ok (.named x.toText)
  | .group fields => do
    let s ← LinearSystem.ofSettings fields
    return .configured s.method s.krylov
  | _ => .error (.unfitSetting "linsolve")

/-- The choice of a line search: none, by name, the caller's own, or with settings of its own. -/
def SearchChoice.ofSetting : Setting σ R K → Except Fault (SearchChoice σ R K)
  | .value .absent => .ok (.configured .standard)
  | .value x => .ok (.named x.toText)
  | .group fields => do return .configured (← LineSearch.ofSettings fields)
  | .search m => .ok (.configured (.standard m))
  | .tolerance _ => .error (.unfitSetting "linesearch")

def StepController.ofSettings (s : Settings σ R K) : Except Fault (StepController R) := do
  let d : StepController R := .standard
  let c : StepController R :=
    { qmin := ← s.number "qmin" d.qmin
      qmax := ← s.number "qmax" d.qmax
      steadyMin := ← s.number "qsteady_min" d.steadyMin
      steadyMax := ← s.number "qsteady_max" d.steadyMax
      gamma := ← s.number "gamma" d.gamma
      qold := ← s.number "qold" d.qold
      abstol := ← s.number "abstol" d.abstol
      reltol := ← s.number "reltol" d.reltol }
  orRefuse c.refusal? c

def RadiusSettings.ofSettings (s : Settings σ R K) (scheme : String) :
    Except Fault (RadiusSettings R) := do
  let d : RadiusSettings R := .standard
  let scheme ← RadiusScheme.ofKey (← s.name scheme d.scheme.key)
  let r : RadiusSettings R :=
    { scheme
      maximum := ← s.number? "max_trust_radius"
      initial := ← s.number? "initial_trust_radius"
      step := ← s.number? "step_threshold"
      shrinkBelow := ← s.number "shrink_threshold" d.shrinkBelow
      expandAbove := ← s.number "expand_threshold" d.expandAbove
      shrinkFactor := ← s.number "shrink_factor" d.shrinkFactor
      expandFactor := ← s.number "expand_factor" d.expandFactor
      maxShrinks := ← s.whole "max_shrink_times" d.maxShrinks }
  orRefuse r.refusal? r

def Newton.ofSettings (form : NewtonForm) (s : Settings σ R K) : Except Fault (Newton σ R K) := do
  let d : Newton σ R K := .standard form
  return {
    form
    search := ← SearchChoice.ofSetting (s.get "linesearch")
    choice := ← SystemChoice.ofSetting (s.get "linsolve")
    scheme := ← s.name "autodiff" d.scheme
    concrete := ← s.truth "concrete_jac" d.concrete
    reuse := ← s.truth "reuse" d.reuse
    reuseTolerance := ← s.number "reusetol" d.reuseTolerance }

def PseudoTransient.ofSettings (s : Settings σ R K) : Except Fault (PseudoTransient R) := do
  let d : PseudoTransient R := .standard
  return {
    controller := ← StepController.ofSettings (s.group "controller")
    choice := ← SystemChoice.ofSetting (s.get "linsolve")
    initial := ← s.number "alpha_initial" d.initial
    scheme := ← s.name "autodiff" d.scheme
    concrete := ← s.truth "concrete_jac" d.concrete }

def TrustRegion.ofSettings (s : Settings σ R K) : Except Fault (TrustRegion R) := do
  let d : TrustRegion R := .standard
  return {
    choice := ← SystemChoice.ofSetting (s.get "linsolve")
    scheme := ← s.name "autodiff" d.scheme
    radius := ← RadiusSettings.ofSettings s "radius_update_scheme" }

def LevenbergMarquardt.ofSettings (s : Settings σ R K) : Except Fault (LevenbergMarquardt R) := do
  let d : LevenbergMarquardt R := .standard
  let geodesic : Geodesic R :=
    { active := ← s.truth "geodesic_acceleration" d.geodesic.active
      difference := ← s.number "finite_diff_step_geodesic" d.geodesic.difference
      bound := ← s.number "alpha_geodesic" d.geodesic.bound }
  return {
    geodesic
    choice := ← SystemChoice.ofSetting (s.get "linsolve")
    scheme := ← s.name "autodiff" d.scheme
    damping := ← s.number "damping_initial" d.damping
    increase := ← s.number "damping_increase_factor" d.increase
    decrease := ← s.number "damping_decrease_factor" d.decrease
    scaling := ← s.number "min_damping_D" d.scaling
    uphill := ← s.number "b_uphill" d.uphill }

/-- The tolerance rule of a setting, if there is one. -/
def ToleranceRule.ofSetting? : Setting σ R K → Option (ToleranceRule σ R K)
  | .tolerance f => some f
  | _ => none

def SpectralResidual.ofSettings (s : Settings σ R K) :
    Except Fault (SpectralResidual σ R K) := do
  let d : SpectralResidual σ R K := .standard
  return {
    tolerance := ToleranceRule.ofSetting? (s.get "eta")
    least := ← s.number "sigma_min" d.least
    largest := ← s.number "sigma_max" d.largest
    first := ← s.number "sigma_1" d.first
    memory := ← s.whole "M" d.memory
    decrease := ← s.number "gamma" d.decrease
    reduceMost := ← s.number "tau_min" d.reduceMost
    reduceLeast := ← s.number "tau_max" d.reduceLeast
    exponent := ← s.number "n_exp" d.exponent
    innerLimit := ← s.whole "max_inner_iterations" d.innerLimit }

namespace Algorithm

/-- The algorithm of a name with some settings, before it is checked as a whole; there is none for a
name that is not known. -/
def read? (name : String) (s : Settings σ R K) : Option (Except Fault (Algorithm σ R K)) :=
  match name with
  | "NewtonRaphson" => some ((Newton.ofSettings .direct s).map newton)
  | "GaussNewton" => some ((Newton.ofSettings .normal s).map newton)
  | "PseudoTransient" => some ((PseudoTransient.ofSettings s).map pseudoTransient)
  | "TrustRegion" => some ((TrustRegion.ofSettings s).map trustRegion)
  | "LevenbergMarquardt" => some ((LevenbergMarquardt.ofSettings s).map levenbergMarquardt)
  | "DFSane" => some ((SpectralResidual.ofSettings s).map spectralResidual)
  | _ => none

/-- The algorithm of a name with some settings, unless they are refused. -/
def ofSettings? (name : String) (s : Settings σ R K) :
    Option (Except Fault (Algorithm σ R K)) :=
  (read? name s).map fun r => do
    let a ← r
    a.validate
    return a

end Algorithm

end RootFinding
