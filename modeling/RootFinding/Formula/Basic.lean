import RootFinding.Failure
import RootFinding.Number

/-!
# Formulas

A formula in the unknowns and the parameters of a problem. Besides single unknowns and parameters it
can refer to the position of the component that it gives and to unknowns near that position, so one
formula can give all the components of a function. Operands are evaluated from left to right, and
the first error that is met wins; of a choice only the branch that is taken is evaluated.
-/

namespace RootFinding

inductive BinaryOp where
  | add
  | sub
  | mul
  | div

inductive UnaryFunction where
  | sqrt
  | sin
  | cos
  | exp
  | log
  | arctan
  | abs

inductive Formula where
  | const (z : Number)
  | unknown (k : Nat)
  | parameter (k : Nat)
  /-- The position of the component. -/
  | position
  /-- The parameter at the position of the component. -/
  | ownParameter
  /-- The unknown at a distance from the position, or another formula where there is none. -/
  | near (distance : Int) (outside : Formula)
  /-- The merit at the start of a solve. -/
  | first
  /-- The number of the step. -/
  | step
  | combine (op : BinaryOp) (a b : Formula)
  | negate (a : Formula)
  /-- A product of equal factors. -/
  | power (a : Formula) (k : Nat)
  | apply (f : UnaryFunction) (a : Formula)
  /-- The third formula where the first is greater than the second by its real part, else the last.
  -/
  | ifAbove (a b x y : Formula)
  | raise (e : Thrown Numeral Number)

/-- What the formulas of a function refer to. -/
structure Scope where
  u : Array Number
  p : Array Number := #[]
  position : Nat := 0
  first : Float := 0
  step : Nat := 0

def BinaryOp.eval : BinaryOp → Number → Number → Number
  | add, x, y => x + y
  | sub, x, y => x - y
  | mul, x, y => x * y
  | div, x, y => x / y

def UnaryFunction.eval : UnaryFunction → Number → Number
  | sqrt, x => x.sqrt
  | sin, x => x.sin
  | cos, x => x.cos
  | exp, x => x.exp
  | log, x => x.log
  | arctan, x => x.arctan
  | abs, x => .real x.abs

/-- The product of `k` equal factors, from the left; one for no factor. -/
def Number.repeated (x : Number) : Nat → Number
  | 0 => .real 1
  | k + 1 => (List.replicate k x).foldl (· * ·) x

namespace Formula

def entry (xs : Array Number) (k : Nat) : Except (Thrown Numeral Number) Number :=
  match xs[k]? with
  | some x => .ok x
  | none => .error (.fault (.outOfRange k xs.size))

def eval (s : Scope) : Formula → Except (Thrown Numeral Number) Number
  | const z => .ok z
  | unknown k => entry s.u k
  | parameter k => entry s.p k
  | position => .ok (.real s.position.toFloat)
  | ownParameter => entry s.p s.position
  | near distance outside =>
    let k : Int := s.position + distance
    if 0 ≤ k ∧ k < s.u.size then entry s.u k.toNat else outside.eval s
  | first => .ok (.real s.first)
  | step => .ok (.real s.step.toFloat)
  | combine op a b => do
    let x ← a.eval s
    let y ← b.eval s
    return op.eval x y
  | negate a => do return -(← a.eval s)
  | power a k => do return (← a.eval s).repeated k
  | apply f a => do return f.eval (← a.eval s)
  | ifAbove a b x y => do
    let l ← a.eval s
    let r ← b.eval s
    if r.re < l.re then x.eval s else y.eval s
  | raise e => .error e

end Formula

/-- The components of a function: each by a formula of its own, or all by one formula, as many as
there are unknowns unless their number is given. -/
inductive Components where
  | list (fs : List Formula)
  | each (f : Formula) (count : Option Nat)

/-- The values of the components; all are complex as soon as one is. -/
def Components.eval (c : Components) (s : Scope) :
    Except (Thrown Numeral Number) (List Number) := do
  let values ← match c with
    | list fs => fs.mapM (Formula.eval s)
    | each f count =>
      (List.range (count.getD s.u.size)).mapM fun i => f.eval { s with position := i }
  return Number.unify values

end RootFinding
