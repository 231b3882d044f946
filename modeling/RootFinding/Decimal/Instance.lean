import RootFinding.Scalar
import RootFinding.Decimal.Layout

/-!
# Double precision as a scalar system

The arithmetic of the processor with the decimal texts of this library. A double precision number
of any size is below every smaller one after at most `1100` halvings of one, subnormal numbers
included.
-/

namespace RootFinding

/-- A power of double precision numbers; squares are exact products. -/
def floatPow (x y : Float) : Float := if y == 2 then x * x else Float.pow x y

instance : Written Float := ⟨Decimal.write⟩

instance : Scalar Float where
  decideLt a b := Float.decLt a b
  decideLe a b := Float.decLe a b
  ofNat := Float.ofNat
  infinity := 1.0 / 0.0
  pi := 3.141592653589793
  isFinite := Float.isFinite
  abs := Float.abs
  sqrt := Float.sqrt
  exp := Float.exp
  arctan := Float.atan
  pow := floatPow
  halvings _ := 1100

end RootFinding
