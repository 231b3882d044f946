import RootFinding.ComplexFloat.Functions
import RootFinding.Entry
import RootFinding.Numeral

/-!
# Real and complex double precision numbers

A `Number` is a real number or a complex one. An operation on two reals is real; as soon as one
operand is complex the other counts as complex too. A complex number with imaginary part zero stays
complex, so a computation that has left the reals does not return to them by accident.
-/

namespace RootFinding

inductive Number where
  | real (x : Float)
  | complex (re im : Float)

namespace Number

def re : Number → Float
  | real x => x
  | complex x _ => x

def im : Number → Float
  | real _ => 0.0
  | complex _ y => y

def isReal : Number → Bool
  | real _ => true
  | complex _ _ => false

/-- The number as a complex one. -/
def toComplex (z : Number) : Number := complex z.re z.im

/-- All numbers of a list as complex ones, if one of them is. -/
def unify (zs : List Number) : List Number :=
  if zs.all isReal then zs else zs.map toComplex

def add : Number → Number → Number
  | real a, real b => real (a + b)
  | z, w => complex (z.re + w.re) (z.im + w.im)

def sub : Number → Number → Number
  | real a, real b => real (a - b)
  | z, w => complex (z.re - w.re) (z.im - w.im)

def mul : Number → Number → Number
  | real a, real b => real (a * b)
  | z, w => complex (z.re * w.re - z.im * w.im) (z.re * w.im + z.im * w.re)

/-- Quotients of complex numbers scale by the larger part of the divisor. -/
def div : Number → Number → Number
  | real a, real b => real (a / b)
  | z, w =>
    if w.re == 0 && w.im == 0 then complex (z.re / w.re.abs) (z.im / w.re.abs)
    else if w.im.abs <= w.re.abs then
      let ratio := w.im / w.re
      let scale := 1 / (w.re + w.im * ratio)
      complex ((z.re + z.im * ratio) * scale) ((z.im - z.re * ratio) * scale)
    else
      let ratio := w.re / w.im
      let scale := 1 / (w.im + w.re * ratio)
      complex ((z.re * ratio + z.im) * scale) ((z.im * ratio - z.re) * scale)

def neg : Number → Number
  | real a => real (-a)
  | complex a b => complex (-a) (-b)

def conj : Number → Number
  | real a => real a
  | complex a b => complex a (-b)

/-- A complex number of double precision. -/
def ofComplex (z : ComplexFloat) : Number := complex z.re z.im

def abs : Number → Float
  | real a => a.abs
  | complex a b => ComplexFloat.abs ⟨a, b⟩

/-- The principal square root; undefined for a negative real. -/
def sqrt : Number → Number
  | real a => real a.sqrt
  | complex a b => ofComplex (ComplexFloat.sqrt ⟨a, b⟩)

def exp : Number → Number
  | real a => real a.exp
  | complex a b => ofComplex (ComplexFloat.exp ⟨a, b⟩)

/-- The principal logarithm; undefined for a negative real. -/
def log : Number → Number
  | real a => real a.log
  | complex a b => ofComplex (ComplexFloat.log ⟨a, b⟩)

def sin : Number → Number
  | real a => real a.sin
  | complex a b => ofComplex (ComplexFloat.sin ⟨a, b⟩)

def cos : Number → Number
  | real a => real a.cos
  | complex a b => ofComplex (ComplexFloat.cos ⟨a, b⟩)

def arctan : Number → Number
  | real a => real a.atan
  | complex a b => ofComplex (ComplexFloat.arctan ⟨a, b⟩)

/-- The larger number; complex numbers are ordered by real part and then by imaginary part. -/
def maximum : Number → Number → Number
  | real a, real b => real (Scalar.upper a b)
  | z, w =>
    if z.re.isNaN || z.im.isNaN then z.toComplex
    else if w.re.isNaN || w.im.isNaN then w.toComplex
    else if z.re < w.re || (z.re == w.re && z.im < w.im) then w.toComplex
    else z.toComplex

/-- A complex number is written as its real part, its signed imaginary part and the letter `j`. -/
def write (style : NumberStyle) : Number → String
  | real a => Decimal.write style a
  | complex a b =>
    let tail := Decimal.write style b
    let sign := if tail.startsWith "-" then "" else "+"
    Decimal.write style a ++ sign ++ tail ++ "j"

instance : Entry Numeral Number where
  add := add
  sub := sub
  mul := mul
  div := div
  neg := neg
  ofReal a := real a.toFloat
  imaginary a := complex 0 a.toFloat
  re z := .real z.re
  im z := .real z.im
  isReal := isReal
  conj := conj
  abs z := .real z.abs
  sqrt := sqrt
  maximum := maximum
  write := write

end Number

end RootFinding
