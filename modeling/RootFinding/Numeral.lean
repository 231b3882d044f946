import RootFinding.Decimal.Instance

/-!
# Whole and real numerals

A number that remembers whether it is whole. Settings are often given as whole numbers, and a report
shows such a setting without a fraction for as long as the solver only adds, subtracts or multiplies
it with other whole numbers. Quotients, roots and all other functions are double precision numbers.
-/

namespace RootFinding

inductive Numeral where
  | whole (n : Int)
  | real (x : Float)

namespace Numeral

def toFloat : Numeral → Float
  | whole n => Float.ofInt n
  | real x => x

/-- An operation that keeps whole numbers whole. -/
def combine (onWhole : Int → Int → Int) (onReal : Float → Float → Float) :
    Numeral → Numeral → Numeral
  | whole m, whole n => whole (onWhole m n)
  | a, b => real (onReal a.toFloat b.toFloat)

/-- A comparison that is exact between whole numbers. -/
def compare (onWhole : Int → Int → Bool) (onReal : Float → Float → Bool) :
    Numeral → Numeral → Bool
  | whole m, whole n => onWhole m n
  | a, b => onReal a.toFloat b.toFloat

def neg : Numeral → Numeral
  | whole n => whole (-n)
  | real x => real (-x)

def abs : Numeral → Numeral
  | whole n => whole n.natAbs
  | real x => real x.abs

/-- The shortest text of a whole number is its digits. -/
def write : NumberStyle → Numeral → String
  | .shortest, whole n => toString n
  | style, a => Decimal.write style a.toFloat

instance : Scalar Numeral where
  add := combine (· + ·) (· + ·)
  sub := combine (· - ·) (· - ·)
  mul := combine (· * ·) (· * ·)
  div a b := real (a.toFloat / b.toFloat)
  neg := neg
  lt a b := compare (fun m n => decide (m < n)) (fun x y => decide (x < y)) a b = true
  le a b := compare (fun m n => decide (m ≤ n)) (fun x y => decide (x ≤ y)) a b = true
  ofScientific m negative e := real (OfScientific.ofScientific m negative e)
  write := write
  decideLt _ _ := inferInstanceAs (Decidable (_ = true))
  decideLe _ _ := inferInstanceAs (Decidable (_ = true))
  ofNat n := whole n
  infinity := real Scalar.infinity
  pi := real Scalar.pi
  isFinite a := a.toFloat.isFinite
  abs := abs
  sqrt a := real a.toFloat.sqrt
  exp a := real a.toFloat.exp
  arctan a := real a.toFloat.atan
  pow a b := real (floatPow a.toFloat b.toFloat)
  halvings a := Scalar.halvings a.toFloat

end Numeral

end RootFinding
