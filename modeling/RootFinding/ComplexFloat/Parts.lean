import RootFinding.Decimal.Dyadic

/-!
# Real functions behind the complex ones

A complex function of double precision is computed from real functions of the two parts. The ones
here go beyond the arithmetic of the processor in one of three ways: they look at the sign of a
zero, they avoid an overflow on the way to a finite result, or they avoid a cancellation by exact
arithmetic.
-/

namespace RootFinding.ComplexFloat

def infinity : Float := 1.0 / 0.0

def undefined : Float := 0.0 / 0.0

def quarterTurn : Float := 1.5707963267948966

/-! ## Signs -/

/-- The sign bit, which also tells the two zeros apart. -/
def isNegative (x : Float) : Bool := x.toBits.toNat / Decimal.twoTo 63 == 1

/-- The magnitude of one number with the sign of another. -/
def withSign (magnitude sign : Float) : Float :=
  if isNegative sign then -magnitude.abs else magnitude.abs

/-! ## Moduli -/

/-- The length of the hypotenuse, without overflow on the way. -/
def hypot (a b : Float) : Float :=
  let x := a.abs
  let y := b.abs
  if x.isInf || y.isInf then infinity
  else
    let big := if x < y then y else x
    let small := if x < y then x else y
    if big == 0 then big + small
    else
      let t := small / big
      big * (1 + t * t).sqrt

/-- A whole number times a power of two, in double precision. -/
def ofScaled (n exponent : Int) : Float :=
  let drop := n.natAbs.log2 - 60
  let top := Float.ofNat (n.natAbs / Decimal.twoTo drop)
  (if n < 0 then -top else top).scaleB (exponent + drop)

/-- The square of a dyadic number as a multiple of `2 ^ exponent`, for an exponent that is small
enough. -/
def squareAt (x : Decimal.Dyadic) (exponent : Int) : Nat :=
  x.mantissa * x.mantissa * Decimal.twoTo (2 * x.exponent - exponent).toNat

/-- The number `x² + y² - 1`, exact before it is rounded, for a point close to the unit circle. -/
def squaresLessOne (x y : Float) : Float :=
  match Decimal.Dyadic.ofFloat? x, Decimal.Dyadic.ofFloat? y with
  | some a, some b =>
    let exponent := min 0 (min (2 * a.exponent) (2 * b.exponent))
    let sum := squareAt a exponent + squareAt b exponent
    ofScaled ((sum : Int) - (Decimal.twoTo (-exponent).toNat : Int)) exponent
  | _, _ => undefined

/-! ## Logarithms and exponentials -/

/-- The logarithm of `1 + x`, accurate near zero. -/
def logOnePlus (x : Float) : Float :=
  let y := 1 + x
  if y == 1 then x else y.log * x / (y - 1)

/-- The logarithm of the modulus of a complex number with finite or infinite parts. -/
def logModulus (a b : Float) : Float :=
  let x := a.abs
  let y := b.abs
  let big := if x < y then y else x
  let small := if x < y then x else y
  if big == 0 then -infinity
  else if big.isInf then infinity
  else if 0.5 <= big && big < 2 then logOnePlus (squaresLessOne big small) / 2
  else
    let t := small / big
    big.log + logOnePlus (t * t) / 2

/-- The largest whole number whose exponential is finite. -/
def exponentLimit : Float := 709

/-- The product `m · eˣ`, for a small `m` finite even where the exponential is not. -/
def timesExp (m x : Float) : Float :=
  if x <= exponentLimit then m * x.exp
  else
    let y := x - exponentLimit
    let m := m * exponentLimit.exp
    if y <= exponentLimit then m * y.exp
    else
      let z := y - exponentLimit
      m * exponentLimit.exp * (if z <= exponentLimit then z else exponentLimit).exp

/-- The product `m · eˣ / 2` for `x` above the limit of the exponential. -/
def timesHalfExp (m x : Float) : Float :=
  timesExp (m * (exponentLimit.exp / 2)) (x - exponentLimit)

/-- The product of `m` and the hyperbolic cosine of `x`. -/
def timesCosh (m x : Float) : Float :=
  if exponentLimit < x.abs then timesHalfExp m x.abs else m * x.cosh

/-- The product of `m` and the hyperbolic sine of `x`. -/
def timesSinh (m x : Float) : Float :=
  if exponentLimit < x.abs then timesHalfExp (if x < 0 then -m else m) x.abs else m * x.sinh

end RootFinding.ComplexFloat
