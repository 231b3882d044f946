import RootFinding.Text.Quoted

/-!
# Faults

Errors that are not failures of a solve: an argument that is refused, an error raised by a function
of the caller, and arithmetic that has no result. Each cause is one constructor; its wording and the
name of its kind are given once. A fault is *deliberate* when a message was chosen for it, as
opposed to an accident of arithmetic.
-/

namespace RootFinding

/-- The length of an array along each of its axes. -/
abbrev Shape := List Nat

/-- The kinds of error that a function of the caller raises besides the failures of a solve. -/
inductive ErrorKind where
  | value | key | type | zeroDivision | runtime
  deriving DecidableEq, Repr

def ErrorKind.name : ErrorKind → String
  | .value => "ValueError"
  | .key => "KeyError"
  | .type => "TypeError"
  | .zeroDivision => "ZeroDivisionError"
  | .runtime => "RuntimeError"

/-- A list of numbers as the text of a shape. -/
def shapeText : Shape → String
  | [n] => s!"({n},)"
  | ns => "(" ++ String.intercalate ", " (ns.map toString) ++ ")"

/-- Why an argument is refused. -/
inductive Refusal where
  | residualNotCallable
  | jacobianNotCallable
  | guessNotNumeric (longest : Nat)
  | guessEmpty
  | unknownScheme (name : String)
  | negativeReuseTolerance
  | unknownSolveMethod (name : String)
  | noMatrix
  | notConcrete (kind : String)
  | unknownSearch (name : String)
  | searchFloor
  | unknownMode (name : String)
  | patience
  | gainLimits
  | steadyBand
  | safetyFactor
  | errorTolerances
  | ratioThresholds
  | radiusFactors
  | iterationLimit
  | residualSize (found expected : Nat)
  | notSquare (algorithm : String) (equations unknowns : Nat)
  | matrixFreeMethod (method : String)
  | initialDamping
  | dampingFactors
  | scalingFloor
  | initialStep
  | spectralBounds
  | historyLength
  | reductionBounds
  | innerLimit
  | noAlgorithm (found : String)
  | noProblem (found : String)
  | styleExists (name : String)
  | parentMissing (name : String)
  | styleMissing (name : String)
  deriving DecidableEq, Repr

def Refusal.kind : Refusal → ErrorKind
  | residualNotCallable | jacobianNotCallable | guessNotNumeric _ | notConcrete _
  | noAlgorithm _ | noProblem _ => .type
  | noMatrix => .runtime
  | _ => .value

def Refusal.message : Refusal → String
  | residualNotCallable => "Residual function 'f' must be callable."
  | jacobianNotCallable => "'jac' must be callable."
  | guessNotNumeric longest => s!"Initial guess must be numeric, got dtype <U{longest}."
  | guessEmpty => "Initial guess cannot be empty."
  | unknownScheme name =>
    s!"Unknown autodiff method '{name}', expected one of ('2-point', '3-point', 'cs')."
  | negativeReuseTolerance => "'reusetol' must be >= 0."
  | unknownSolveMethod name =>
    s!"Unknown linear solve method '{name}', expected one of ('lu', 'splu', 'gmres', 'lstsq')."
  | noMatrix => "factorize() must be called before solve()."
  | notConcrete kind =>
    s!"A concrete matrix is required for this linear solve method, got {kind}."
  | unknownSearch name => s!"Unknown line search method '{name}'."
  | searchFloor => "'alpha_min' must be in (0, 1]."
  | unknownMode name =>
    s!"Unknown termination mode '{name}', expected one of " ++
      "('abs', 'rel', 'abs_norm', 'rel_norm', 'abs_safe', 'rel_safe')."
  | patience => "'patience_steps' must be >= 1."
  | gainLimits => "Require 0 < qmin <= 1 <= qmax."
  | steadyBand => "Require qsteady_min <= qsteady_max."
  | safetyFactor => "'gamma' must be > 0."
  | errorTolerances => "Invalid error estimate tolerances."
  | ratioThresholds => "Require 0 <= step_threshold < shrink_threshold < expand_threshold."
  | radiusFactors => "Require 0 < shrink_factor < 1 < expand_factor."
  | iterationLimit => "'maxiters' must be >= 0."
  | residualSize found expected =>
    s!"Function result size ({found}) does not match problem dimension ({expected}).  " ++
      "Use NonlinearLeastSquaresProblem for non-square systems."
  | notSquare algorithm equations unknowns =>
    s!"{algorithm} requires a square system, got {equations} equations in {unknowns} unknowns."
  | matrixFreeMethod method =>
    s!"Linear solve method '{method}' requires a concrete Jacobian.  " ++
      "Use 'gmres' or concrete_jac=True."
  | initialDamping => "'damping_initial' must be > 0."
  | dampingFactors => "Damping increase and decrease factors must be > 1."
  | scalingFloor => "'min_damping_D' must be > 0."
  | initialStep => "'alpha_initial' must be > 0."
  | spectralBounds => "Require 0 < σ_min <= σ_max."
  | historyLength => "'M' must be >= 1."
  | reductionBounds => "Require 0 < τ_min <= τ_max < 1."
  | innerLimit => "'max_inner_iterations' must be >= 1."
  | noAlgorithm found => s!"Expected a NonlinearAlgorithm, got {found}."
  | noProblem found => s!"Expected a NonlinearProblem, got {found}."
  | styleExists name => s!"Print style '{name}' already defined."
  | parentMissing name => s!"Parent print style '{name}' not found."
  | styleMissing name => s!"Style '{name}' not found."

inductive Fault where
  /-- Raised by a function of the caller. -/
  | raised (kind : ErrorKind) (text : String)
  | refused (reason : Refusal)
  /-- Two vectors that cannot be combined entry by entry. -/
  | misaligned (left right : Nat)
  | unreshapable (size : Nat) (shape : Shape)
  | outOfRange (index size : Nat)
  /-- Rows of different lengths where an array is expected. -/
  | ragged
  | unknownScheme (name : String)
  /-- A matrix and a right-hand side that do not fit, or a matrix of a form a method cannot take. -/
  | unfitSystem
  | nonfiniteSystem
  /-- A solve after a factorisation that left no factors. -/
  | noFactors
  /-- A triangular solve with the factors of a matrix that is not square. -/
  | notSquareFactors
  /-- A value that a setting cannot take. -/
  | unfitSetting (name : String)
  /-- A call of the Jacobian of a problem that has none. -/
  | noJacobian
  /-- An iteration that was allowed no step. -/
  | noIteration
  | zeroDivision
  | overflow
  /-- A complex number where numbers are compared. -/
  | complexOrder
  /-- A complex number in the place of a real one. -/
  | complexValue
  | precision
  deriving DecidableEq, Repr

namespace Fault

/-- Whether a message was chosen for the fault. -/
def deliberate : Fault → Bool
  | raised _ _ | refused _ => true
  | _ => false

def name : Fault → String
  | raised kind _ => kind.name
  | refused reason => reason.kind.name
  | misaligned _ _ | unreshapable _ _ | ragged | unknownScheme _ | unfitSystem | nonfiniteSystem
  | precision => "ValueError"
  | outOfRange _ _ => "IndexError"
  | noFactors | unfitSetting _ | noJacobian | complexOrder | complexValue => "TypeError"
  | noIteration => "UnboundLocalError"
  | notSquareFactors => "LinAlgError"
  | zeroDivision => "ZeroDivisionError"
  | overflow => "OverflowError"

/-- The text of a fault. A missing key is written in quotes. -/
def text : Fault → String
  | raised .key text => Text.quoted text
  | raised _ text => text
  | refused reason => reason.message
  | misaligned left right =>
    s!"operands could not be broadcast together with shapes ({left},) ({right},) "
  | unreshapable size shape =>
    s!"cannot reshape array of size {size} into shape " ++ (shapeText shape).replace " " ""
  | outOfRange index size => s!"index {index} is out of bounds for axis 0 with size {size}"
  | ragged => "the rows have different lengths"
  | unknownScheme name => s!"{Text.quoted name} is not a radius scheme"
  | unfitSystem => "incompatible dimensions"
  | nonfiniteSystem => "the system holds numbers that are not finite"
  | noFactors => "the matrix has no factors"
  | notSquareFactors => "the factors are not square"
  | unfitSetting name => s!"the setting {name} cannot take this value"
  | noJacobian => "the problem has no Jacobian"
  | noIteration => "the iteration took no step"
  | zeroDivision => "division by zero"
  | overflow => "numerical result out of range"
  | complexOrder => "complex numbers are not ordered"
  | complexValue => "a complex number stands in the place of a real one"
  | precision => "missing precision"

end Fault

end RootFinding
