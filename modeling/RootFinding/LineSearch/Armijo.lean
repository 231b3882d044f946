import RootFinding.LineSearch.Basic

/-!
# Backtracking search

Tries the full step, then the minimum of a parabola, then minima of cubics that are kept at half of
the last step, until the merit has decreased by enough. The slope at zero is given.
-/

namespace RootFinding.Armijo

variable {R S : Type} [Scalar R]

/-- A merit function along a step as an action. -/
abbrev Merit (ε R S : Type) : Type := R → Action ε S R

/-- The part of the predicted decrease that is asked for. -/
def sufficient : R := 1e-4

/-- Whether the merit `f` at `a` is low enough for the merit `f0` and the slope `d0` at zero. -/
def accepts (f0 d0 a f : R) : Bool := f ≤ f0 + sufficient * a * d0

/-- The minimum of the parabola through two merits with the slope at zero. -/
def parabola (f0 d0 a f : R) : R :=
  -d0 * Scalar.square a / 2.0 / (f - f0 - d0 * a)

/-- The minimum of the cubic through three merits with the slope at zero. -/
def cubic (f0 d0 a0 g0 a1 g1 : R) : R :=
  let factor := Scalar.square a0 * Scalar.square a1 * (a1 - a0)
  let r1 := g1 - f0 - d0 * a1
  let r0 := g0 - f0 - d0 * a0
  let a := (Scalar.square a0 * r1 - Scalar.square a1 * r0) / factor
  let b := (-(a0 * a0 * a0) * r1 + a1 * a1 * a1 * r0) / factor
  (-b + Scalar.sqrt (Scalar.abs (b * b - 3.0 * a * d0))) / (3.0 * a)

/-- Whether a cubic step reduces the last one too much or too little. -/
def outside (a1 a2 : R) : Bool := a1 / 2.0 < a1 - a2 || 1.0 - a2 / a1 < 0.96

/-- Cubic steps from the last two trials until one is accepted or they fall to `least`. -/
def backtrack {ε : Type} (phi : Merit ε R S) (f0 d0 least : R) :
    Nat → R → R → R → R → Action ε S (Option R)
  | 0, _, _, _, _ => return none
  | fuel + 1, a0, g0, a1, g1 => do
    if least < a1 then
      let a2 := cubic f0 d0 a0 g0 a1 g1
      let g2 ← phi a2
      if accepts f0 d0 a2 g2 then return some a2
      backtrack phi f0 d0 least fuel a1 g1 (if outside a1 a2 then a1 / 2.0 else a2) g2
    else return none

/-- The step that the search accepts, if there is one. Each trial is at most half of the one before,
so the number of trials is bounded by the halvings down to `least`. -/
def search {ε : Type} (phi : Merit ε R S) (f0 d0 least : R) : Action ε S (Option R) := do
  let g0 ← phi 1.0
  if accepts f0 d0 1.0 g0 then return some 1.0
  let a1 := parabola f0 d0 1.0 g0
  let g1 ← phi a1
  if accepts f0 d0 a1 g1 then return some a1
  backtrack phi f0 d0 least (Scalar.halvings least + 1) 1.0 g0 a1 g1

end RootFinding.Armijo
