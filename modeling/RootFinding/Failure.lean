import RootFinding.Datum
import RootFinding.Action

/-!
# Failures of a solve

How a solve ends, and why one failed. A failure has a kind, which fixes the return code of the
solve, the values that were given with it, an optional flag and details, further named values, and
the name of the error that caused it. `Failure.text` shows the values and then one line for the
flag, the details and each named value that is present.
-/

namespace RootFinding

/-- The final status of a solve. -/
inductive ReturnCode where
  /-- Not ended yet. -/
  | default
  | success
  | maxIters
  | failure
  | stalled
  | diverged
  deriving DecidableEq, Repr

namespace ReturnCode

def name : ReturnCode → String
  | default => "DEFAULT"
  | success => "SUCCESS"
  | maxIters => "MAX_ITERS"
  | failure => "FAILURE"
  | stalled => "STALLED"
  | diverged => "DIVERGED"

def value : ReturnCode → Nat
  | default => 0
  | success => 1
  | maxIters => 2
  | failure => 3
  | stalled => 4
  | diverged => 5

def all : List ReturnCode := [default, success, maxIters, failure, stalled, diverged]

def ofName? (name : String) : Option ReturnCode := all.find? (·.name == name)

def successful (c : ReturnCode) : Bool := c == success

end ReturnCode

/-- The kinds of failure of a solve. -/
inductive FailureKind where
  | general
  | iterationLimit
  | singularSystem
  | residual
  | differentiation
  | divergence
  | stall
  deriving DecidableEq, Repr

namespace FailureKind

def name : FailureKind → String
  | general => "SolverError"
  | iterationLimit => "MaxItersExceeded"
  | singularSystem => "LinearSolveSingular"
  | residual => "ResidualFailure"
  | differentiation => "DifferentiationFailure"
  | divergence => "NumericalDivergence"
  | stall => "SolverStalled"

def all : List FailureKind :=
  [general, iterationLimit, singularSystem, residual, differentiation, divergence, stall]

def ofName? (name : String) : Option FailureKind := all.find? (·.name == name)

/-- The return code of a solve that a failure of this kind ends. -/
def returnCode : FailureKind → ReturnCode
  | iterationLimit => .maxIters
  | divergence => .diverged
  | stall => .stalled
  | _ => .failure

/-- The kinds that a failure belongs to, from its own to the widest one. -/
def lineage : FailureKind → List String
  | general => [general.name, ErrorKind.runtime.name]
  | k => [k.name, general.name, ErrorKind.runtime.name]

end FailureKind

/-- Why a solve failed. -/
structure Failure (R K : Type) where
  kind : FailureKind
  values : List (Datum R K) := []
  flag : Option Int := none
  details : Option String := none
  named : List (String × Datum R K) := []
  /-- The name of the error that caused this one. -/
  cause : Option String := none

namespace Failure

variable {R K : Type}

/-- A failure with a message. -/
def ofMessage (kind : FailureKind) (message : String) : Failure R K :=
  { kind, values := [.text message] }

/-- The lines below the values: flag, details and named values that are present. -/
def fields (f : Failure R K) : List (String × Datum R K) :=
  [("flag", f.flag.elim .absent .whole), ("details", f.details.elim .absent .text)] ++ f.named

def text [Written R] (f : Failure R K) : String :=
  f.fields.foldl
    (fun text (name, value) =>
      match value with
      | .absent => text
      | value => text ++ "\n" ++ name ++ " -> " ++ value.toText)
    (Datum.listText f.values)

def returnCode (f : Failure R K) : ReturnCode := f.kind.returnCode

end Failure

/-- What an action of the library ends with when it does not answer. -/
inductive Thrown (R K : Type) where
  | failure (f : Failure R K)
  | fault (f : Fault)

namespace Thrown

variable {R K : Type}

/-- The name of the kind of error. -/
def name : Thrown R K → String
  | failure f => f.kind.name
  | fault f => f.name

def text [Written R] : Thrown R K → String
  | failure f => f.text
  | fault f => f.text

end Thrown

namespace Action

variable {R K S α : Type}

/-- The value of a computation whose only errors are faults. -/
def ofFault (r : Except Fault α) : Action (Thrown R K) S α :=
  match r with
  | .ok x => pure x
  | .error f => throw (.fault f)

def fail (f : Failure R K) : Action (Thrown R K) S α := throw (.failure f)

@[simp] theorem eval_ofFault_ok (x : α) (s : S) :
    (ofFault (.ok x) : Action (Thrown R K) S α).eval s = (.ok x, s) := rfl

@[simp] theorem eval_ofFault_error (f : Fault) (s : S) :
    (ofFault (.error f) : Action (Thrown R K) S α).eval s = (.error (.fault f), s) := rfl

end Action

end RootFinding
