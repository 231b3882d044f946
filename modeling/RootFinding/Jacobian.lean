import RootFinding.Workspace
import RootFinding.Difference.Basic

/-!
# Jacobians

The Jacobian of a residual comes from the caller's own function where there is one, otherwise from
differences: as a free matrix if no concrete one is wanted, as a sparse matrix if the problem has a
pattern, else as a dense one. It is stored only when it has the right shape and finite entries; any
error on the way becomes a differentiation failure and leaves the stored Jacobian as it was.
-/

namespace RootFinding

variable {σ R K : Type}

/-- How Jacobians are made and when an old one will do. -/
structure JacobianSettings (R : Type) where
  scheme : Scheme
  concrete : Bool := true
  reuse : Bool := false
  /-- The length of the way since the last Jacobian up to which it may be used again. -/
  reuseTolerance : R

namespace JacobianValue

variable [Scalar R] [Entry R K]

/-- The value as a matrix: a list is one row, a number a matrix of one entry. -/
def toMatrix : JacobianValue K → Matrix R K
  | dense A => .dense A
  | sparse A => .sparse A
  | row v => .dense (.ofRow v.toList)
  | number x => .dense (.ofRow [x])

end JacobianValue

/-- The failure that an error on the way to a Jacobian becomes. -/
def Thrown.ofDifferentiation [Written R] : Thrown R K → Failure R K
  | .failure f =>
    if f.kind = .differentiation then f
    else
      { kind := .differentiation
        values := [.text ("Jacobian evaluation failed: " ++ f.text)]
        flag := some 1
        details := some f.kind.name
        cause := some f.kind.name }
  | .fault e =>
    { kind := .differentiation
      values := [.text ("Jacobian evaluation failed: " ++ e.text)]
      flag := some 1
      details := some e.name
      cause := some e.name }

namespace Operator

variable [Scalar R] [Entry R K]

/-- The product of an operator with a vector. A derivative has a row for each entry of the residual
that it was taken around, and no product of another length passes. -/
def apply (F : Vec K → Work σ R K (Vec K)) : Operator R K → Vec K → Work σ R K (Vec K)
  | concrete A, v => return Dense.apply A v
  | derivative s x f0, v => do
    let y ← Difference.along F s x f0 v
    if y.size ≠ f0.size then throw (.fault (.unreshapable y.size [f0.size]))
    return y
  | shifted A shift, v => do
    let y ← A.apply F v
    Action.ofFault (Vec.align (· + ·) y (shift • v))

end Operator

namespace Matrix

variable [Scalar R] [Entry R K]

/-- The product of a matrix with a vector, whose length has to fit. -/
def apply (F : Vec K → Work σ R K (Vec K)) (A : Matrix R K) (v : Vec K) :
    Work σ R K (Vec K) := do
  if v.size ≠ A.cols then throw (.fault .unfitSystem)
  match A with
  | dense A => return Dense.apply A v
  | sparse A => return Sparse.apply A v
  | free A => A.apply F v

/-- The product of the transposed matrix with a vector, whose length has to fit. A free matrix has
no transposed one. -/
def applyTranspose (A : Matrix R K) (v : Vec K) : Except Fault (Vec K) :=
  if v.size ≠ A.height then .error .unfitSystem
  else match A with
    | dense A => .ok (Dense.applyTranspose A v)
    | sparse A => .ok (Sparse.applyTranspose A v)
    | free _ => .error .unfitSystem

/-- The transposed matrix times the matrix. A free matrix is left as it is. -/
def gram : Matrix R K → Matrix R K
  | dense A => .dense (Dense.gram A)
  | sparse A => .sparse (Sparse.gram A)
  | free A => .free A

def diagonal : Matrix R K → Vec K
  | dense A => Dense.diagonal A
  | sparse A => Sparse.diagonal A
  | free _ => .ofList []

/-- The matrix with a vector added to its main diagonal. -/
def addDiagonal (A : Matrix R K) (d : Vec K) : Matrix R K :=
  match A with
  | dense A => .dense (Dense.addDiagonal A d)
  | sparse A => .sparse (Sparse.addDiagonal A d)
  | free A => .free A

/-- A square matrix with a multiple of the identity added. -/
def shift (A : Matrix R K) (a : R) : Except Fault (Matrix R K) :=
  if A.isSquare then
    match A with
    | free A => .ok (.free (.shifted A a))
    | A => .ok (A.addDiagonal (Vec.replicate A.height (Entry.ofReal a)))
  else .error (.misaligned A.height A.cols)

end Matrix

namespace Problem

variable [Scalar R] [Entry R K]

/-- Whether only products with the Jacobian are available. -/
def isMatrixFree (p : Problem σ R K) (s : JacobianSettings R) : Bool :=
  p.jacobian.isNone && !s.concrete

/-- The Jacobian of the caller's function at `u`. -/
def analyticJacobian (p : Problem σ R K) (u : Vec K) : Work σ R K (Matrix R K) := do
  let x ← Action.ofFault (p.restructure u)
  match p.jacobian with
  | some jac => return (← Workspace.call jac x).toMatrix
  | none => throw (.fault .noJacobian)

/-- A Jacobian at `u` as its source gives it. Differences are taken at the real part of `u`, around
the residual `fu` or one that is evaluated first. -/
def rawJacobian (p : Problem σ R K) (s : JacobianSettings R) (u : Vec K) (fu : Option (Vec K)) :
    Work σ R K (Matrix R K) := do
  match p.jacobian with
  | some _ => p.analyticJacobian u
  | none =>
    let x := u.re
    let f0 ← match fu with
      | some f => pure f
      | none => p.evaluate (.ofReals x)
    if !s.concrete then return .free (.derivative s.scheme x f0)
    match p.pattern with
    | some pattern =>
      return .sparse (.ofPlaces (← Difference.sparse p.evaluate s.scheme x f0 pattern))
    | none => return .dense (← Difference.dense p.evaluate s.scheme x f0)

/-- Why a matrix cannot serve as the Jacobian of a residual of length `m` in `n` unknowns. -/
def jacobianDefect? (J : Matrix R K) (m : Option Nat) (n : Nat) : Option (Failure R K) :=
  let expected : Shape := [m.getD J.height, n]
  if m.isSome && J.shape != expected then
    some
      { kind := .differentiation
        values := [.text s!"Jacobian has shape {shapeText J.shape}, expected {
          shapeText expected}."]
        flag := some 2 }
  else if !J.isFinite then
    some
      { kind := .differentiation
        values := [.text "Jacobian contains non-finite values."]
        flag := some 3 }
  else none

/-- Builds and stores the Jacobian at `u`. -/
def jacobianAt (p : Problem σ R K) (s : JacobianSettings R) (u : Vec K) (fu : Option (Vec K)) :
    Work σ R K (Matrix R K) := do
  let J ← (p.rawJacobian s u fu).mapError fun e => .failure e.ofDifferentiation
  match jacobianDefect? J (fu.map Vec.size) u.size with
  | some f => Action.fail f
  | none =>
    modify fun w => { w with jacobian := some J, jacobians := w.jacobians + 1 }
    return J

end Problem

/-- Whether a new Jacobian is needed: always when there is none or old ones are not used again, else
when the residual grew or the way since the last Jacobian is too long. -/
def JacobianSettings.needsRebuild [Scalar R] (s : JacobianSettings R) (J : Option (Matrix R K))
    (residual previous way : R) : Bool :=
  !s.reuse || J.isNone || previous < residual || s.reuseTolerance < way

end RootFinding
