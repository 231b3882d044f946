import RootFinding.Jacobian
import RootFinding.LinearSystem.Elimination
import RootFinding.LinearSystem.LeastSquares
import RootFinding.LinearSystem.Gmres

/-!
# Factorising and solving

A linear system takes its matrix with `factorize` and then answers any number of solves. What the
methods compute is a backend, so that other routines can stand in for those of this library. A
matrix is stored before it is factorised: after a factorisation that fails the handle has a matrix
but no factors. A pivot counts as zero when it is negligible beside the largest one.
-/

namespace RootFinding

/-- The numerical routines behind the methods of a linear system. -/
structure Backend (σ R K : Type) where
  /-- The moduli of the pivots of the dense factors. -/
  pivots : Dense K → List R
  luSolve : Dense K → Vec K → Vec K
  /-- Whether the sparse factorisation meets a column of zeros. -/
  sparseSingular : Dense K → Bool
  sparseSolve : Dense K → Vec K → Vec K
  leastSquares : Dense K → Vec K → Vec K
  gmres : (Vec K → Work σ R K (Vec K)) → KrylovSettings R → Vec K → Option (Vec K) →
    Work σ R K (Vec K × Gmres.Outcome)

variable {σ R K : Type} [Scalar R] [Entry R K]

/-- The routines of this library. -/
def Backend.standard : Backend σ R K where
  pivots A := (TriangularFactors.ofDense A).pivots.map Entry.abs
  luSolve A b := .ofList ((TriangularFactors.ofDense A).solve b.toList)
  sparseSingular A := (TriangularFactors.ofDense A).pivots.any Entry.isZero
  sparseSolve A b := .ofList ((TriangularFactors.ofDense A).solve b.toList)
  leastSquares := LeastSquares.solve
  gmres := Gmres.solve

/-- The details of a singular matrix with the given pivots and number of rows, if it is one. -/
def singularDetails? (pivots : List R) (height : Nat) : Option String :=
  let largest := (Vec.maximum? (.ofList pivots)).getD 0.0
  let smallest := (Vec.minimum? (.ofList pivots)).getD 0.0
  let tiny := Scalar.ofNat height * Scalar.epsilon * largest
  let bad := Scalar.same largest 0.0 || pivots.any (fun a => a ≤ tiny) || !Scalar.isFinite largest
  if bad then
    some ("min |U_ii| = " ++ Written.write (.scientific 3) smallest ++
      ", max |U_ii| = " ++ Written.write (.scientific 3) largest)
  else none

namespace LinearSystem

/-- Changes the linear system of the workspace. -/
def change (f : LinearSystem R K → LinearSystem R K) : Work σ R K Unit :=
  modify fun w => { w with system := f w.system }

/-- The entries of a matrix; those of a free matrix are not known. -/
def concrete : Matrix R K → Except Fault (Dense K)
  | .free A => .error (.refused (.notConcrete A.kindName))
  | .dense A => .ok A
  | .sparse A => .ok (Sparse.toDense A)

/-- Keeps the factors of a factorisation that succeeded. -/
def keep (f : Factors K) : Work σ R K Unit :=
  change fun s => { s with factors := some f, factorizations := s.factorizations + 1 }

def factorizeDense (B : Backend σ R K) (A : Matrix R K) : Work σ R K Unit := do
  let D ← Action.ofFault (concrete A)
  match singularDetails? (B.pivots D) D.height with
  | some details =>
    Action.fail
      { kind := .singularSystem
        values := [.text "Matrix is singular to working precision."]
        flag := some 1
        details := some details }
  | none => keep (.lu D)

def factorizeSparse (B : Backend σ R K) (A : Matrix R K) : Work σ R K Unit := do
  match A.toDense? with
  | none => throw (.fault .unfitSystem)
  | some D =>
    if !D.isSquare then throw (.fault .unfitSystem)
    if B.sparseSingular D then
      Action.fail
        { kind := .singularSystem
          values := [.text "Sparse LU factorisation failed."]
          flag := some 1
          details := some "Factor is exactly singular"
          cause := some ErrorKind.runtime.name }
    else keep (.splu D)

/-- Stores a matrix and prepares it for solves. A new matrix keeps the last solution as the start of
the iterative method while the sizes agree. -/
def factorize (B : Backend σ R K) (A : Matrix R K) : Work σ R K Unit := do
  let method := (← get).system.method.getD (SolveMethod.forMatrix A)
  change fun s => { s with method := some method, matrix := some A, factors := none }
  match method with
  | .lu => factorizeDense B A
  | .splu => factorizeSparse B A
  | .gmres => change fun s => { s with last := s.last.filter fun x => x.size == A.cols }
  | .lstsq => do
    let D ← Action.ofFault (concrete A)
    change fun s => { s with factors := some (.lstsq D) }

/-- The solution by the kept factors of the dense method. -/
def solveDense (B : Backend σ R K) (factors : Option (Factors K)) (b : Vec K) :
    Except Fault (Vec K) :=
  match factors with
  | some (.lu D) =>
    if b.size ≠ D.height then .error .unfitSystem
    else if !D.isSquare then .error .notSquareFactors
    else .ok (B.luSolve D b)
  | _ => .error .noFactors

/-- The solution by the kept factors of the sparse method. Real factors take no complex right-hand
side. -/
def solveSparse (B : Backend σ R K) (factors : Option (Factors K)) (b : Vec K) :
    Except Fault (Vec K) :=
  match factors with
  | some (.splu D) =>
    if Dense.isReal D && !b.isReal then .error .complexValue
    else if b.size ≠ D.height then .error .unfitSystem
    else .ok (B.sparseSolve D b)
  | _ => .error .noFactors

/-- The least squares solution for the kept matrix. -/
def solveLeastSquares (B : Backend σ R K) (factors : Option (Factors K)) (b : Vec K) :
    Except Fault (Vec K) :=
  match factors with
  | some (.lstsq D) =>
    if b.size ≠ D.height then .error .unfitSystem
    else if !(Dense.isFinite D && b.isFinite) then .error .nonfiniteSystem
    else .ok (B.leastSquares D b)
  | _ => .error .unfitSystem

/-- The solution by the iterative method, from the last solution. The iteration is complex as soon
as the matrix or the right-hand side is; a real one starts from the real part of the last solution.
Missing the tolerance is only worth a warning. -/
def solveIteratively (B : Backend σ R K) (F : Vec K → Work σ R K (Vec K)) (A : Matrix R K)
    (s : LinearSystem R K) (b : Vec K) : Work σ R K (Vec K) := do
  if !A.isSquare || b.size ≠ A.height then throw (.fault .unfitSystem)
  let isReal := A.isReal && b.isReal
  let b := if isReal then b else b.widen
  let start := s.last.map fun x => if isReal then x.realPart else x.widen
  let (x, outcome) ← B.gmres (A.apply F) s.krylov b start
  match outcome with
  | .converged => return x
  | .stopped n =>
    Workspace.warn ("GMRES did not reach rtol = " ++
      Written.write (.general 3) s.krylov.tolerance ++ s!" after {n} iterations.")
    return x

/-- The solution by a method, from the state of the linear system before the solve. -/
def solveBy (B : Backend σ R K) (F : Vec K → Work σ R K (Vec K)) (A : Matrix R K)
    (s : LinearSystem R K) (b : Vec K) : SolveMethod → Work σ R K (Vec K)
  | .lu => Action.ofFault (solveDense B s.factors b)
  | .splu => Action.ofFault (solveSparse B s.factors b)
  | .lstsq => Action.ofFault (solveLeastSquares B s.factors b)
  | .gmres => solveIteratively B F A s b

/-- Keeps a solution and answers it, if it is finite. -/
def answer (x : Vec K) : Work σ R K (Vec K) := do
  if !x.isFinite then
    Action.fail
      { kind := .singularSystem
        values := [.text "Linear solve gave non-finite values."]
        flag := some 3 }
  change fun s => { s with last := some x }
  return x

/-- The solution for a right-hand side and the matrix that was given last; `F` evaluates the
residual, which the products with a free matrix may need. -/
def solve (B : Backend σ R K) (F : Vec K → Work σ R K (Vec K)) (b : Vec K) :
    Work σ R K (Vec K) := do
  let s := (← get).system
  match s.matrix with
  | none => throw (.fault (.refused .noMatrix))
  | some A =>
    change fun s => { s with solves := s.solves + 1 }
    answer (← solveBy B F A s b (s.method.getD (SolveMethod.forMatrix A)))

end LinearSystem

end RootFinding
