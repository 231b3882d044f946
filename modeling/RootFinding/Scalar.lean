/-!
# Scalars

The arithmetic that the solvers need of a real number, as a class. Every routine of the library is
written once over it. Binary floating point is one instance; an exact number system with infinities
and an undefined value is another. No law is assumed here.

`least` and `greatest` keep their first argument unless the second is strictly better, which decides
what an undefined number does; `lower` and `upper` are undefined as soon as one argument is.
-/

namespace RootFinding

/-- A way to write a number in decimal. -/
inductive NumberStyle where
  /-- The fewest digits that read back as the same number. -/
  | shortest
  /-- One digit, a point, `places` digits and an exponent. -/
  | scientific (places : Nat)
  /-- `digits` significant digits, with an exponent only for very large and very small numbers. -/
  | general (digits : Nat)

/-- Numbers that can be written in decimal. -/
class Written (R : Type) where
  write : NumberStyle → R → String

/-- A system of real numbers, possibly with infinities and an undefined number. -/
class Scalar (R : Type) extends Add R, Sub R, Mul R, Div R, Neg R, LT R, LE R, OfScientific R,
    Written R where
  decideLt : ∀ a b : R, Decidable (a < b)
  decideLe : ∀ a b : R, Decidable (a ≤ b)
  ofNat : Nat → R
  infinity : R
  pi : R
  isFinite : R → Bool
  abs : R → R
  sqrt : R → R
  exp : R → R
  arctan : R → R
  /-- The power of a number; undefined for a negative base and a fractional exponent. -/
  pow : R → R → R
  /-- How often one can be halved, at most, before it is no larger than the given number. -/
  halvings : R → Nat

instance Scalar.decidableLt {R : Type} [Scalar R] (a b : R) : Decidable (a < b) :=
  Scalar.decideLt a b

instance Scalar.decidableLe {R : Type} [Scalar R] (a b : R) : Decidable (a ≤ b) :=
  Scalar.decideLe a b

namespace Scalar

variable {R : Type} [Scalar R]

/-- Numerical equality: an undefined number equals nothing. -/
def same (a b : R) : Bool := a ≤ b && b ≤ a

def isNaN (a : R) : Bool := !same a a

/-- The smaller of two numbers; the first, unless the second is strictly smaller. -/
def least (a b : R) : R := if b < a then b else a

/-- The larger of two numbers; the first, unless the second is strictly larger. -/
def greatest (a b : R) : R := if a < b then b else a

/-- The smaller of two numbers, undefined when one of them is. -/
def lower (a b : R) : R :=
  if isNaN a then a else if isNaN b then b else least a b

/-- The larger of two numbers, undefined when one of them is. -/
def upper (a b : R) : R :=
  if isNaN a then a else if isNaN b then b else greatest a b

/-- `x` moved into `[lo, hi]`, the upper bound winning. -/
def clamp (x lo hi : R) : R := least (greatest x lo) hi

/-- `x` moved into `[lo, hi]`; an undefined number stays undefined. -/
def clip (x lo hi : R) : R := lower (upper x lo) hi

/-- `1`, `-1` or `0` by the sign of a number, undefined for an undefined one. -/
def sign (a : R) : R :=
  if 0.0 < a then 1.0 else if a < 0.0 then -1.0 else a

def ofInt (n : Int) : R := if n < 0 then -Scalar.ofNat n.natAbs else Scalar.ofNat n.natAbs

def square (a : R) : R := a * a

/-- The spacing of double precision numbers at one. -/
def epsilon : R := 1.0 / 4503599627370496.0

/-- The default tolerance of a solve, `epsilon ^ (4/5)`. -/
def defaultTolerance : R := pow epsilon 0.8

end Scalar

end RootFinding
