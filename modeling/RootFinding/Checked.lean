import RootFinding.Scalar
import RootFinding.Fault

/-!
# Checked arithmetic

Arithmetic on single numbers that refuses to leave the finite ones by accident: a quotient by zero
and a power without a finite real value are faults. The entries of vectors are not checked.
-/

namespace RootFinding.Checked

variable {R : Type} [Scalar R]

def div (a b : R) : Except Fault R :=
  if Scalar.same b 0.0 then .error .zeroDivision else .ok (a / b)

/-- A result that a finite argument must not have left the finite numbers for. -/
def finite (fromFinite : Bool) (x : R) : Except Fault R :=
  if fromFinite && !Scalar.isFinite x then .error .overflow else .ok x

def square (a : R) : Except Fault R := finite (Scalar.isFinite a) (Scalar.square a)

def pow (a b : R) : Except Fault R :=
  let x := Scalar.pow a b
  if Scalar.same a 0.0 ∧ b < 0.0 then .error .zeroDivision
  else if a < 0.0 ∧ Scalar.isNaN x ∧ !Scalar.isNaN b then .error .complexOrder
  else finite (Scalar.isFinite a && Scalar.isFinite b) x

end RootFinding.Checked
