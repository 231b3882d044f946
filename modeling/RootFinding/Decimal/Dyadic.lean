/-!
# Dyadic numbers

A finite binary floating point number is a natural number times a power of two, with a sign. The
decimal texts of the library are computed from this form by exact arithmetic on natural numbers.
-/

namespace RootFinding.Decimal

/-- The power `2 ^ k`. -/
def twoTo (k : Nat) : Nat := Nat.pow 2 k

/-- The number `± mantissa · 2 ^ exponent`. Zero keeps its sign. -/
structure Dyadic where
  negative : Bool
  mantissa : Nat
  exponent : Int
  deriving Repr, DecidableEq

namespace Dyadic

/-- The numerator of the magnitude, written as a quotient of natural numbers. -/
def num (x : Dyadic) : Nat := x.mantissa * twoTo x.exponent.toNat

/-- The denominator of the magnitude. -/
def den (x : Dyadic) : Nat := twoTo (-x.exponent).toNat

/-- The dyadic number of a bit pattern of double precision, if it is a finite number. -/
def ofBits? (bits : Nat) : Option Dyadic :=
  let fraction : Nat := bits % twoTo 52
  let power : Nat := bits / twoTo 52 % twoTo 11
  let negative := bits / twoTo 63 % 2 == 1
  if power = 2047 then none
  else if power = 0 then some ⟨negative, fraction, -1074⟩
  else some ⟨negative, fraction + twoTo 52, (power : Int) - 1075⟩

def ofFloat? (x : Float) : Option Dyadic := ofBits? x.toBits.toNat

theorem den_pos (x : Dyadic) : 0 < x.den := Nat.two_pow_pos _

end Dyadic

end RootFinding.Decimal
