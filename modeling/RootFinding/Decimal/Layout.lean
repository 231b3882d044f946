import RootFinding.Scalar
import RootFinding.Decimal.Shortest

/-!
# Layout of decimal numbers

How the digits of a number are laid out: with an exponent, in positional notation, or with the
choice left to its size. `shortestLayout` and `generalLayout` hold the decisions for the two styles
that choose: where positional notation ends, and whether a whole number keeps a fraction.
-/

namespace RootFinding.Decimal

/-- How a style that may use an exponent decides. -/
structure Layout where
  /-- The least exponent that is written in positional notation. -/
  least : Int
  /-- The first exponent that is too large for positional notation. -/
  bound : Int
  /-- Whether a whole number in positional notation ends in `.0`. -/
  wholeFraction : Bool
  /-- The mark before the exponent. -/
  mark : Char

/-- Numbers in full: positional from `0.0001` to below `10 ^ 16`, whole numbers with a fraction. -/
def shortestLayout : Layout := ⟨-4, 16, true, 'e'⟩

/-- Numbers to a few digits: positional while the digits reach the units, no empty fraction. -/
def generalLayout (digits : Nat) : Layout := ⟨-4, digits, false, 'E'⟩

/-- The decimal digits of `n`, led by zeros up to `count` of them. -/
def digitText (n count : Nat) : String :=
  let text := String.ofList (Nat.toDigits 10 n)
  String.ofList (List.replicate (count - text.length) '0') ++ text

/-- An exponent with its sign and at least two digits. -/
def exponentText (e : Int) : String :=
  (if e < 0 then "-" else "+") ++ digitText e.natAbs 2

/-- Digits cut after the first `before` of them by a point; no point when nothing follows. -/
def pointed (digits : String) (before : Nat) : String :=
  let front := digits.toList.take before
  let back := digits.toList.drop before
  if back.isEmpty then String.ofList front
  else String.ofList front ++ "." ++ String.ofList back

/-- Scientific notation of `count` significant digits. -/
def scientificText (s : Significant) (count : Nat) (mark : Char) : String :=
  pointed (digitText s.digits count) 1 ++ mark.toString ++ exponentText s.exponent

/-- Positional notation of `count` significant digits. -/
def positionalText (s : Significant) (count : Nat) : String :=
  let text := digitText s.digits count
  if s.exponent < 0 then
    "0." ++ String.ofList (List.replicate ((-s.exponent).toNat - 1) '0') ++ text
  else if count ≤ s.exponent.toNat + 1 then
    text ++ String.ofList (List.replicate (s.exponent.toNat + 1 - count) '0')
  else pointed text (s.exponent.toNat + 1)

/-- The digits without trailing zeros, and how many are left. -/
def trimmed (s : Significant) : Nat → Significant × Nat
  | 0 => (s, 0)
  | 1 => (s, 1)
  | count + 2 =>
    if s.digits % 10 = 0 then trimmed ⟨s.digits / 10, s.exponent⟩ (count + 1)
    else (s, count + 2)

/-- Digits in the notation that the layout chooses for their exponent. -/
def Layout.text (l : Layout) (s : Significant) (count : Nat) : String :=
  if l.least ≤ s.exponent ∧ s.exponent < l.bound then
    let body := positionalText s count
    if l.wholeFraction ∧ (count : Int) ≤ s.exponent + 1 then body ++ ".0" else body
  else scientificText s count l.mark

/-- The magnitude of a dyadic number with `places` digits after the first one. -/
def Dyadic.scientific (x : Dyadic) (places : Nat) (mark : Char) : String :=
  scientificText (significant (places + 1) x.num x.den) (places + 1) mark

/-- The magnitude of a dyadic number with `places` decimal places. -/
def Dyadic.fixed (x : Dyadic) (places : Nat) : String :=
  let n := roundDiv (x.num * tenTo places) x.den
  let text := digitText n (places + 1)
  pointed text (text.length - places)

/-- The magnitude of a dyadic number to a few significant digits. -/
def Dyadic.general (x : Dyadic) (digits : Nat) : String :=
  let count := max digits 1
  let s := significant count x.num x.den
  let (t, left) := trimmed s count
  (generalLayout count).text t left

/-- The magnitude of a dyadic number by the fewest digits that read back. -/
def Dyadic.full (x : Dyadic) : String :=
  let (s, count) := x.shortest
  shortestLayout.text s count

/-- The text of a number that has no digits, in small letters. -/
def wordOf (x : Float) : String :=
  if x.isNaN then "nan" else if x < 0 then "-inf" else "inf"

def signed (x : Dyadic) (body : String) : String := if x.negative then "-" ++ body else body

/-- A double precision number in a style. Words are in capitals where the exponent mark is. -/
def write (style : NumberStyle) (x : Float) : String :=
  match Dyadic.ofFloat? x, style with
  | none, .shortest => wordOf x
  | none, _ => (wordOf x).toUpper
  | some d, .shortest => signed d d.full
  | some d, .scientific places => signed d (d.scientific places 'E')
  | some d, .general digits => signed d (d.general digits)

end RootFinding.Decimal
