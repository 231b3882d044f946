import RootFinding.Scalar

/-!
# Entries of vectors

What the vectors and matrices of a problem are made of: numbers over a scalar system that may have
an imaginary part. A number is *real* when it carries no imaginary part at all, so an imaginary part
of zero is still one. A scalar system can serve as its own entries.
-/

namespace RootFinding

/-- Entries `K` over the scalars `R`. -/
class Entry (R : outParam Type) (K : Type) [Scalar R] extends Add K, Sub K, Mul K, Div K,
    Neg K where
  ofReal : R → K
  /-- The given multiple of the imaginary unit. -/
  imaginary : R → K
  re : K → R
  im : K → R
  /-- Whether the number carries no imaginary part. -/
  isReal : K → Bool
  conj : K → K
  abs : K → R
  sqrt : K → K
  /-- The larger of two numbers, undefined when one of them is. -/
  maximum : K → K → K
  write : NumberStyle → K → String

namespace Entry

variable {R K : Type} [Scalar R] [Entry R K]

def zero : K := ofReal 0.0

def one : K := ofReal 1.0

def isFinite (x : K) : Bool := Scalar.isFinite (re x) && Scalar.isFinite (im x)

/-- Numerical equality of both parts. -/
def same (x y : K) : Bool := Scalar.same (re x) (re y) && Scalar.same (im x) (im y)

def isZero (x : K) : Bool := same x (zero : K)

/-- The square of the modulus. -/
def normSq (x : K) : R := re x * re x + im x * im x

/-- The number without its imaginary part. -/
def realPart (x : K) : K := ofReal (re x)

/-- Zero, with an imaginary part unless a real number is wanted. -/
def zeroAs (isReal : Bool) : K := if isReal then zero else imaginary 0.0

/-- The number with an imaginary part. -/
def widen (x : K) : K := if isReal x then x + imaginary 0.0 else x

end Entry

end RootFinding
