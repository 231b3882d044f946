import RootFinding.Run.Basic
import RootFinding.Settings.Basic

/-!
# Options by name

The parts of a solve that do not belong to an algorithm, from named settings: the termination test,
the options, the linear system, the Jacobians and the line search. Each is checked as soon as its
settings are read.
-/

namespace RootFinding

variable {σ R K : Type} [Scalar R]

/-- Refuses what has a reason to be refused. -/
def orRefuse {α : Type} (r : Option Refusal) (x : α) : Except Fault α :=
  match r with
  | none => .ok x
  | some reason => .error (.refused reason)

/-- The termination test of some settings. -/
def Termination.ofSettings (s : Settings σ R K) : Except Fault (Termination R) := do
  let d : Termination R := .standard
  let mode ← TerminationMode.ofName (← s.name "mode" d.mode.name)
  let t : Termination R :=
    { mode
      protectiveThreshold := ← s.number "protective_threshold" d.protectiveThreshold
      patienceSteps := ← s.whole "patience_steps" d.patienceSteps
      patienceMultiplier := ← s.number "patience_objective_multiplier" d.patienceMultiplier
      minMaxFactor := ← s.number "min_max_factor" d.minMaxFactor }
  orRefuse t.refusal? t

/-- The norm of a name; the euclidean one for any name that is not known. -/
def Vec.normNamed [Entry R K] : String → Vec K → R
  | "max" => Vec.normMax
  | "sum" => Vec.normSum
  | "rms" => Vec.rms
  | _ => Vec.norm

def Options.ofSettings [Entry R K] (s : Settings σ R K) : Except Fault (Options R K) := do
  let d : Options R K := .standard
  let termination ← Termination.ofSettings (s.group "termination")
  return {
    termination
    maxiters := ← s.whole "maxiters" d.maxiters
    abstol := (← s.number? "abstol").getD d.abstol
    reltol := (← s.number? "reltol").getD d.reltol
    norm := Vec.normNamed ((← s.name? "norm").getD "l2")
    storeTrace := ← s.truth "store_trace" d.storeTrace
    displayLevel := ← s.whole "display_level" d.displayLevel }

/-- The settings of Jacobians. -/
def JacobianSettings.ofSettings (s : Settings σ R K) : Except Fault (JacobianSettings R) := do
  let scheme ← Scheme.ofName (← s.name "autodiff" Scheme.forward.name)
  let j : JacobianSettings R :=
    { scheme
      concrete := ← s.truth "concrete_jac" true
      reuse := ← s.truth "reuse" false
      reuseTolerance := ← s.number "reusetol" 0.1 }
  orRefuse (if j.reuseTolerance < 0.0 then some .negativeReuseTolerance else none) j

/-- A linear system that has no matrix yet. -/
def LinearSystem.ofSettings (s : Settings σ R K) : Except Fault (LinearSystem R K) := do
  let method ← (← s.name? "method").mapM SolveMethod.ofName
  let d : KrylovSettings R := .standard
  return .fresh method
    { tolerance := ← s.number "rtol" d.tolerance
      restart := ← s.count? "restart"
      maxiter := ← s.count? "maxiter" }

/-- The search method of a setting: none, a named one or the caller's own. -/
def SearchMethod.ofSetting : Setting σ R K → Except Fault (SearchMethod σ R K)
  | .value .absent => .ok .none
  | .value x => SearchMethod.ofName x.toText
  | .search m => .ok m
  | _ => .error (.unfitSetting "method")

def LineSearch.ofSettings (s : Settings σ R K) : Except Fault (LineSearch σ R K) := do
  let method ← SearchMethod.ofSetting (s.get "method")
  let d : LineSearch σ R K := .standard method
  let search : LineSearch σ R K :=
    { method
      least := ← s.number "alpha_min" d.least
      difference := ← s.number "rdiff" d.difference }
  orRefuse search.refusal? search

end RootFinding
