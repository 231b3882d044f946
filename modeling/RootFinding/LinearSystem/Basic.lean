import RootFinding.Matrix.Basic

/-!
# Linear systems

A linear system is a handle that keeps a matrix, what was computed of it once and for all, and the
last solution. The method is chosen with the first matrix, if it was not given. The handle counts
the factorisations that succeeded and the solves that were begun.
-/

namespace RootFinding

/-- How a linear system is solved. -/
inductive SolveMethod where
  /-- Dense triangular factors. -/
  | lu
  /-- Sparse triangular factors. -/
  | splu
  /-- Generalised minimal residuals, restarted. -/
  | gmres
  /-- The least squares solution of minimal norm. -/
  | lstsq
  deriving DecidableEq, Repr

namespace SolveMethod

def name : SolveMethod → String
  | lu => "lu"
  | splu => "splu"
  | gmres => "gmres"
  | lstsq => "lstsq"

def all : List SolveMethod := [lu, splu, gmres, lstsq]

/-- The method of a name; other names are refused. -/
def ofName (name : String) : Except Fault SolveMethod :=
  match all.find? (·.name == name) with
  | some m => .ok m
  | none => .error (.refused (.unknownSolveMethod name))

/-- The method for a matrix when none was asked for. -/
def forMatrix {R K : Type} (A : Matrix R K) : SolveMethod :=
  if A.isSquare then
    match A with
    | .free _ => gmres
    | .sparse _ => splu
    | .dense _ => lu
  else lstsq

end SolveMethod

/-- Settings of the iterative method. -/
structure KrylovSettings (R : Type) where
  tolerance : R
  /-- The dimension after which the iteration restarts. -/
  restart : Option Nat := none
  maxiter : Option Nat := none

def KrylovSettings.standard {R : Type} [Scalar R] : KrylovSettings R := { tolerance := 1e-8 }

/-- A matrix that a direct method has accepted. -/
inductive Factors (K : Type) where
  | lu (A : Dense K)
  | splu (A : Dense K)
  | lstsq (A : Dense K)

structure LinearSystem (R K : Type) where
  method : Option SolveMethod
  krylov : KrylovSettings R
  matrix : Option (Matrix R K) := none
  factors : Option (Factors K) := none
  /-- The solution of the last solve that succeeded. -/
  last : Option (Vec K) := none
  factorizations : Nat := 0
  solves : Nat := 0

namespace LinearSystem

variable {R K : Type}

def hasMatrix (s : LinearSystem R K) : Bool := s.matrix.isSome

/-- The handle before any matrix was given. -/
def fresh (method : Option SolveMethod) (krylov : KrylovSettings R) : LinearSystem R K :=
  { method, krylov }

end LinearSystem

end RootFinding
