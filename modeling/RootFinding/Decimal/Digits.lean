/-!
# Decimal digits of a quotient

`roundDiv` rounds a quotient of natural numbers to the nearest natural number, a half to the even
neighbour. `significant` gives a chosen number of leading decimal digits of a quotient and
`places` a chosen number of decimal places, both rounded in that way from the exact value.
-/

namespace RootFinding.Decimal

/-- The power `10 ^ k`. -/
def tenTo (k : Nat) : Nat := Nat.pow 10 k

/-- The nearest natural number to `num / den`; a half goes to the even neighbour. -/
def roundDiv (num den : Nat) : Nat :=
  let q := num / den
  let r := num % den
  if 2 * r < den then q
  else if den < 2 * r then q + 1
  else if q % 2 = 0 then q else q + 1

/-- The number of decimal digits of a natural number, one for zero. -/
def width (n : Nat) : Nat := (Nat.toDigits 10 n).length

/-- The exponent of the leading decimal digit of a positive quotient. -/
def leadingExponent (num den : Nat) : Int :=
  if den ≤ num then (width (num / den) : Int) - 1
  else
    let t := width (den / num)
    if num * tenTo (t - 1) = den then -((t - 1 : Nat) : Int) else -(t : Int)

/-- The quotient `num / den` counted in units of `10 ^ unit`, rounded. -/
def roundTo (num den : Nat) (unit : Int) : Nat :=
  roundDiv (num * tenTo (-unit).toNat) (den * tenTo unit.toNat)

/-- Leading digits and the exponent of the first: the number is `digits · 10 ^ (exponent - n + 1)`
for `n` digits. -/
structure Significant where
  digits : Nat
  exponent : Int

/-- The first `n` significant digits of `num / den`, rounded. Zero has the digit zero. -/
def significant (n num den : Nat) : Significant :=
  if num = 0 then ⟨0, 0⟩
  else
    let e := leadingExponent num den
    let d := roundTo num den (e - (n : Int) + 1)
    if d = tenTo n then ⟨tenTo (n - 1), e + 1⟩ else ⟨d, e⟩

theorem roundDiv_exact (q : Nat) {den : Nat} (h : 0 < den) : roundDiv (q * den) den = q := by
  have h1 : q * den / den = q := Nat.mul_div_cancel q h
  have h2 : q * den % den = 0 := Nat.mul_mod_left q den
  simp [roundDiv, h1, h2, h]

end RootFinding.Decimal
