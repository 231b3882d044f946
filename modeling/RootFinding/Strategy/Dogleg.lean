import RootFinding.Vec
import RootFinding.Checked

/-!
# Dogleg steps

A step of bounded length for a linear model of the residual: the Newton step where it is short
enough, else a point of the boundary on the path that goes down the gradient to the best point there
and on to the Newton step.
-/

namespace RootFinding

variable {R K : Type} [Scalar R] [Entry R K]

/-- A linear model of the residual at a point. -/
structure LinearModel (K : Type) where
  /-- The step to the least residual of the model. -/
  newton : Vec K
  gradient : Vec K
  /-- The product of the Jacobian with the gradient. -/
  image : Vec K

namespace LinearModel

/-- The point at the given radius on the way from `base`, of the given length, along `d`. -/
def reach (base d : Vec K) (length radius : R) : Except Fault (Vec K) := do
  if base.size ≠ d.size then throw (.misaligned base.size d.size)
  let square ← Checked.square radius
  let a : R := Entry.re (d.dot d)
  let b := 2.0 * Entry.re (base.dot d)
  let c := Scalar.square length - square
  let t := (-b + Scalar.sqrt (Scalar.square b - 4.0 * a * c)) / (2.0 * a)
  return base + t • d

/-- The step of a model within a radius. -/
def dogleg (m : LinearModel K) (radius : R) : Except Fault (Vec K) := do
  let newtonLength := m.newton.norm
  if newtonLength ≤ radius then return m.newton
  let slope := m.gradient.norm
  let curvature : R := Entry.re (m.image.dot m.image)
  if Scalar.same slope 0.0 || Scalar.same curvature 0.0 then
    return (radius / newtonLength) • m.newton
  let descent := (-(Scalar.square slope / curvature)) • m.gradient
  let descentLength := descent.norm
  if radius ≤ descentLength then return (-(radius / slope)) • m.gradient
  let d ← Vec.align (· - ·) m.newton descent
  reach descent d descentLength radius

end LinearModel

end RootFinding
