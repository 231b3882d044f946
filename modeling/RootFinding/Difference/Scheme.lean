import RootFinding.Vec

/-!
# Difference schemes

Three ways to take the derivative of a residual numerically: a forward difference, a central
difference, and a step along the imaginary axis. The step at a coordinate is relative to its size
and points away from zero.
-/

namespace RootFinding

inductive Scheme where
  | forward
  | central
  /-- A step along the imaginary axis. -/
  | complexStep
  deriving DecidableEq, Repr

namespace Scheme

def name : Scheme → String
  | forward => "2-point"
  | central => "3-point"
  | complexStep => "cs"

def all : List Scheme := [forward, central, complexStep]

/-- The scheme of a name; other names are refused. -/
def ofName (name : String) : Except Fault Scheme :=
  match all.find? (·.name == name) with
  | some s => .ok s
  | none => .error (.refused (.unknownScheme name))

variable {R : Type} [Scalar R]

/-- The step at a coordinate of size one. -/
def relativeStep : Scheme → R
  | central => Scalar.pow Scalar.epsilon (1.0 / 3.0)
  | _ => Scalar.sqrt Scalar.epsilon

/-- The step at a coordinate. A central difference has no direction. -/
def step (s : Scheme) (x : R) : R :=
  let away : R := if 0.0 ≤ x then 1.0 else -1.0
  let h := relativeStep s * away * Scalar.upper 1.0 (Scalar.abs x)
  match s with
  | central => Scalar.abs h
  | _ => h

end Scheme

end RootFinding
