import RootFinding.Matrix.Dense
import RootFinding.Difference.Scheme

/-!
# Matrices of a linear system

A matrix is dense, sparse, or free: known only through its products. A free matrix is a concrete one
that hides its entries, the derivative of a residual taken by differences along the vector, or a
free matrix with a multiple of the identity added.
-/

namespace RootFinding

/-- A matrix that is known only through its products with vectors. -/
inductive Operator (R K : Type) where
  | concrete (A : Dense K)
  /-- The derivative at `x`, where the residual is `f0`, by differences. -/
  | derivative (scheme : Scheme) (x : Vec R) (f0 : Vec K)
  | shifted (A : Operator R K) (shift : R)

namespace Operator

variable {R K : Type}

def height : Operator R K → Nat
  | concrete A => A.height
  | derivative _ _ f0 => f0.size
  | shifted A _ => A.height

def cols : Operator R K → Nat
  | concrete A => A.cols
  | derivative _ x _ => x.size
  | shifted A _ => A.cols

/-- Whether the products with real vectors are taken as real. -/
def isReal [Scalar R] [Entry R K] : Operator R K → Bool
  | concrete A => Dense.isReal A
  | derivative _ _ _ => true
  | shifted A _ => A.isReal

/-- The name of the form of an operator in messages. -/
def kindName : Operator R K → String
  | concrete _ => "MatrixLinearOperator"
  | _ => "_CustomLinearOperator"

end Operator

inductive Matrix (R K : Type) where
  | dense (A : Dense K)
  | sparse (A : Sparse K)
  | free (A : Operator R K)

namespace Matrix

variable {R K : Type}

def height : Matrix R K → Nat
  | dense A => A.height
  | sparse A => A.height
  | free A => A.height

def cols : Matrix R K → Nat
  | dense A => A.cols
  | sparse A => A.cols
  | free A => A.cols

def shape (A : Matrix R K) : Shape := [A.height, A.cols]

def isSquare (A : Matrix R K) : Bool := A.height == A.cols

variable [Scalar R] [Entry R K]

/-- Whether every entry that is present is finite; an operator has no entries. -/
def isFinite : Matrix R K → Bool
  | dense A => Dense.isFinite A
  | sparse A => Sparse.isFinite A
  | free _ => true

/-- Whether the matrix has no imaginary parts. -/
def isReal : Matrix R K → Bool
  | dense A => Dense.isReal A
  | sparse A => Sparse.isReal A
  | free A => A.isReal

/-- The entries of a matrix that is not free. -/
def toDense? : Matrix R K → Option (Dense K)
  | dense A => some A
  | sparse A => some (Sparse.toDense A)
  | free _ => none

end Matrix

end RootFinding
