import RootFinding.ComplexFloat.Parts

/-!
# Elementary functions of a complex number

The principal branches in double precision. A branch cut is continuous from the side that the sign
of a zero part names, so that the two zeros give the two limits. An infinite part dominates where
the function has a limit in its direction; the result is undefined where it has none, and a part
that is zero whatever the undefined part may be stays zero.
-/

namespace RootFinding

/-- A complex number of double precision. -/
structure ComplexFloat where
  re : Float
  im : Float

namespace ComplexFloat

def swap (z : ComplexFloat) : ComplexFloat := ⟨z.im, z.re⟩

/-- A number times a power of two. -/
def scale (z : ComplexFloat) (exponent : Int) : ComplexFloat :=
  ⟨z.re.scaleB exponent, z.im.scaleB exponent⟩

def isFinite (z : ComplexFloat) : Bool := z.re.isFinite && z.im.isFinite

def hasNaN (z : ComplexFloat) : Bool := z.re.isNaN || z.im.isNaN

/-- The modulus. -/
def abs (z : ComplexFloat) : Float := hypot z.re z.im

/-! ## Square root -/

/-- The square root of a number whose modulus and its inverse are finite. -/
def sqrtScaled (z : ComplexFloat) : ComplexFloat :=
  let modulus := z.abs
  if 0 < z.re then
    let root := ((modulus + z.re) / 2).sqrt
    ⟨root, withSign (z.im / root / 2) z.im⟩
  else
    let root := ((modulus - z.re) / 2).sqrt
    ⟨(z.im / root / 2).abs, withSign root z.im⟩

/-- The square root with a real part that is not negative. Very large and very small numbers are
scaled by a power of four first. -/
def sqrt (z : ComplexFloat) : ComplexFloat :=
  let huge : Float := Float.scaleB 1 1022
  let tiny : Float := Float.scaleB 1 (-1021)
  if z.im.isInf then ⟨infinity, z.im⟩
  else if z.re.isInf then
    let zero := if z.im.isNaN then undefined else 0
    if z.re < 0 then ⟨zero, withSign infinity z.im⟩ else ⟨infinity, withSign zero z.im⟩
  else if z.hasNaN then ⟨undefined, undefined⟩
  else if z.re == 0 && z.im == 0 then ⟨0, z.im⟩
  else if huge <= z.re.abs || huge <= z.im.abs then (sqrtScaled (z.scale (-2))).scale 1
  else if z.re.abs < tiny && z.im.abs < tiny then (sqrtScaled (z.scale 54)).scale (-27)
  else sqrtScaled z

/-! ## Logarithm and exponential -/

/-- The logarithm with an imaginary part between minus and plus half a turn. -/
def log (z : ComplexFloat) : ComplexFloat :=
  if z.hasNaN then ⟨if z.re.isInf || z.im.isInf then infinity else undefined, undefined⟩
  else ⟨logModulus z.re z.im, Float.atan2 z.im z.re⟩

def exp (z : ComplexFloat) : ComplexFloat :=
  if z.re.isNaN then ⟨undefined, if z.im == 0 then z.im else undefined⟩
  else if z.re.isInf then
    let radius := if z.re < 0 then 0 else infinity
    if z.im == 0 then ⟨radius, z.im⟩
    else if z.im.isFinite then ⟨withSign radius z.im.cos, withSign radius z.im.sin⟩
    else if z.re < 0 then ⟨0, withSign 0 z.im⟩
    else ⟨infinity, undefined⟩
  else if z.im.isFinite then ⟨timesExp z.im.cos z.re, timesExp z.im.sin z.re⟩
  else ⟨undefined, undefined⟩

/-! ## Circular and hyperbolic functions -/

/-- The hyperbolic cosine. -/
def cosh (z : ComplexFloat) : ComplexFloat :=
  if z.re.isNaN then ⟨undefined, if z.im == 0 then z.im else undefined⟩
  else if z.re.isInf then
    let turned (y : Float) : Float := if z.re < 0 then -y else y
    if z.im == 0 then ⟨infinity, turned z.im⟩
    else if z.im.isFinite then
      ⟨withSign infinity z.im.cos, turned (withSign infinity z.im.sin)⟩
    else ⟨infinity, undefined⟩
  else if z.im.isFinite then ⟨timesCosh z.im.cos z.re, timesSinh z.im.sin z.re⟩
  else ⟨undefined, if z.re == 0 then 0 else undefined⟩

/-- The hyperbolic sine. -/
def sinh (z : ComplexFloat) : ComplexFloat :=
  if z.re.isNaN then ⟨undefined, if z.im == 0 then z.im else undefined⟩
  else if z.re.isInf then
    if z.im == 0 then z
    else if z.im.isFinite then
      let cosine := withSign infinity z.im.cos
      ⟨if z.re < 0 then -cosine else cosine, withSign infinity z.im.sin⟩
    else ⟨infinity, undefined⟩
  else if z.im.isFinite then ⟨timesSinh z.im.cos z.re, timesCosh z.im.sin z.re⟩
  else ⟨if z.re == 0 then z.re else undefined, undefined⟩

/-- The cosine of `z` is the hyperbolic cosine of `z` turned by a quarter. -/
def cos (z : ComplexFloat) : ComplexFloat := cosh ⟨-z.im, z.re⟩

/-- The sine is the hyperbolic sine with the parts of argument and result exchanged. -/
def sin (z : ComplexFloat) : ComplexFloat := z.swap.sinh.swap

/-! ## Arcus tangent -/

/-- The imaginary part of the arcus tangent of a number far from zero. -/
def arctanFarIm (z : ComplexFloat) : Float :=
  if z.re.abs <= 1 then 1 / z.im
  else if z.im.abs <= 1 then z.im / z.re / z.re
  else
    let half := hypot (z.re / 2) (z.im / 2)
    z.im / half / half / 4

/-- The imaginary part of the arcus tangent: a quarter of the logarithm of the ratio between the
squared distances from `-i` and from `i`. -/
def arctanIm (z : ComplexFloat) : Float :=
  let negligible : Float := Float.scaleB 1 (-104)
  if z.im.abs == 1 && z.re.abs < negligible then
    withSign 0.5 z.im * (0.6931471805599453 - z.re.abs.log)
  else
    let square := if z.re.abs < negligible then 0 else z.re * z.re
    let below := square + (z.im + 1) * (z.im + 1)
    let above := square + (z.im - 1) * (z.im - 1)
    if below / above < 0.5 then (below / above).log / 4
    else logOnePlus (4 * z.im / above) / 4

/-- The arcus tangent with a real part of at most a quarter turn. -/
def arctan (z : ComplexFloat) : ComplexFloat :=
  let far : Float := Float.scaleB 1 56
  if z.re.isInf then ⟨withSign quarterTurn z.re, withSign 0 z.im⟩
  else if z.im.isInf || (z.im == 0 && z.re.isNaN) then
    ⟨if z.re.isNaN then undefined else withSign quarterTurn z.re, withSign 0 z.im⟩
  else if z.hasNaN then ⟨undefined, undefined⟩
  else if z.re == 0 && z.im == 0 then z
  else if far <= z.re.abs || far <= z.im.abs then ⟨withSign quarterTurn z.re, arctanFarIm z⟩
  else
    let inside := -squaresLessOne z.re z.im
    ⟨Float.atan2 (2 * z.re) (if inside == 0 then 0 else inside) / 2, arctanIm z⟩

end ComplexFloat

end RootFinding
