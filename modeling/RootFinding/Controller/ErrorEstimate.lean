import RootFinding.Vec
import RootFinding.Checked

/-!
# Error estimate of pseudo-time steps

The error of a pseudo-time step from the last three iterates and the last two step sizes: the scaled
difference of two secant slopes, each coordinate over a tolerance for its size.
-/

namespace RootFinding

variable {R K : Type} [Scalar R] [Entry R K]

/-- Three iterates, the newest first. -/
structure Iterates (K : Type) where
  u : Vec K
  previous : Vec K
  beforePrevious : Vec K

/-- The differences of the slopes, coordinate by coordinate. -/
def secantDifference (i : Iterates K) (alpha alphaPrevious : R) : Except Fault (Vec R) := do
  let near ← Vec.align (· - ·) i.u i.previous
  let far ← Vec.align (· - ·) i.previous i.beforePrevious
  let d ← Vec.align (· - ·) (near.divideBy (alpha * (alpha + alphaPrevious)))
    (far.divideBy (alphaPrevious * (alpha + alphaPrevious)))
  return d.map Entry.abs

/-- The tolerance of each coordinate. -/
def errorScale (i : Iterates K) (abstol reltol : R) : Except Fault (Vec R) := do
  let size ← Vec.align Scalar.upper (i.previous.map Entry.abs) (i.u.map Entry.abs)
  return size.map fun s => abstol + reltol * s

/-- The error of the step to the newest iterate. -/
def estimateError (i : Iterates K) (alpha alphaPrevious abstol reltol : R) (norm : Vec K → R) :
    Except Fault R := do
  let square ← Checked.square alpha
  let r := 7.0 / 12.0 * square
  let d ← secantDifference i alpha alphaPrevious
  let scale ← errorScale i abstol reltol
  let scaled ← Vec.align (fun d s => r * d / s) d scale
  return norm (.ofReals scaled)

end RootFinding
