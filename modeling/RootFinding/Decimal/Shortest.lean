import RootFinding.Decimal.Dyadic
import RootFinding.Decimal.Digits

/-!
# The shortest decimal that reads back

A decimal reads back as a double precision number when it lies in the interval of reals that round
to that number; the ends belong to the interval exactly when the mantissa is even. For one digit,
two digits, and so on, the two neighbours of the number on that decimal grid are tested; the first
grid with a hit wins, and of two hits the nearer one, a tie going to the even digit.
-/

namespace RootFinding.Decimal

/-- The interval of reals that round to a dyadic number, in units of `2 ^ (exponent - 2)`. -/
structure Interval where
  low : Nat
  high : Nat
  closed : Bool

/-- The lower gap is half as wide at a power of two, unless the number is subnormal. -/
def Dyadic.interval (x : Dyadic) : Interval where
  low := 4 * x.mantissa - (if x.mantissa = twoTo 52 ∧ x.exponent ≠ -1074 then 1 else 2)
  high := 4 * x.mantissa + 2
  closed := x.mantissa % 2 = 0

/-- Whether `c · 10 ^ unit` lies in the interval of `x`. -/
def Dyadic.covers (x : Dyadic) (c : Nat) (unit : Int) : Bool :=
  let quarter := x.exponent - 2
  let value := c * tenTo unit.toNat * twoTo (-quarter).toNat
  let scale := twoTo quarter.toNat * tenTo (-unit).toNat
  let low := x.interval.low * scale
  let high := x.interval.high * scale
  if x.interval.closed then low ≤ value && value ≤ high else low < value && value < high

/-- The number of `n` digits that reads back as `x` and is nearest to it, if there is one. -/
def Dyadic.shortestOf? (x : Dyadic) (n : Nat) : Option Significant :=
  let e := leadingExponent x.num x.den
  let unit := e - (n : Int) + 1
  let down := x.num * tenTo (-unit).toNat / (x.den * tenTo unit.toNat)
  let near := roundTo x.num x.den unit
  let far := if near = down then down + 1 else down
  let pick (c : Nat) : Significant := if c = tenTo n then ⟨tenTo (n - 1), e + 1⟩ else ⟨c, e⟩
  if x.covers near unit then some (pick near)
  else if x.covers far unit then some (pick far)
  else none

/-- The shortest digits of a nonzero `x` and their number. Seventeen digits always suffice. -/
def Dyadic.shortest (x : Dyadic) : Significant × Nat :=
  let rec search : Nat → Nat → Significant × Nat
    | 0, n => (significant n x.num x.den, n)
    | fuel + 1, n =>
      match x.shortestOf? n with
      | some s => (s, n)
      | none => search fuel (n + 1)
  if x.mantissa = 0 then (⟨0, 0⟩, 1) else search 16 1

end RootFinding.Decimal
