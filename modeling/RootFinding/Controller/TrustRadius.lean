import RootFinding.Vec
import RootFinding.Failure

/-!
# Trust radius

The radius of the region in which a linear model is trusted. After each trial step the ratio of the
actual to the predicted reduction decides how the radius changes and whether the step is accepted. A
ratio that is not finite counts as minus infinity. Too many reductions in a row end the solve.
-/

namespace RootFinding

/-- How the radius follows the ratio. -/
inductive RadiusScheme where
  /-- Fixed factors on ratio thresholds. -/
  | simple
  /-- Halved on poor agreement, at least twice the step on good agreement. -/
  | doubling
  /-- The step length times a smooth function of the ratio. -/
  | smooth
  deriving DecidableEq, Repr

namespace RadiusScheme

def name : RadiusScheme → String
  | simple => "SIMPLE"
  | doubling => "NLSOLVE"
  | smooth => "HEI"

/-- The name of a scheme in settings. -/
def key : RadiusScheme → String
  | simple => "simple"
  | doubling => "nlsolve"
  | smooth => "hei"

def all : List RadiusScheme := [simple, doubling, smooth]

def ofKey (key : String) : Except Fault RadiusScheme :=
  match all.find? (·.key == key) with
  | some s => .ok s
  | none => .error (.unknownScheme key)

end RadiusScheme

structure RadiusSettings (R : Type) where
  scheme : RadiusScheme := .simple
  maximum : Option R := none
  initial : Option R := none
  /-- Steps with a ratio up to this one are rejected. -/
  step : Option R := none
  shrinkBelow : R
  expandAbove : R
  shrinkFactor : R
  expandFactor : R
  maxShrinks : Int := 32

namespace RadiusSettings

variable {R : Type}

def standard [OfScientific R] : RadiusSettings R where
  shrinkBelow := 0.25
  expandAbove := 0.75
  shrinkFactor := 0.25
  expandFactor := 2.0

variable [Scalar R]

/-- The ratio up to which steps are rejected. -/
def stepThreshold (s : RadiusSettings R) : R :=
  s.step.getD (if s.scheme = .doubling then 0.05 else 1e-4)

/-- Why the settings are refused. -/
def refusal? (s : RadiusSettings R) : Option Refusal :=
  if !(0.0 ≤ s.stepThreshold ∧ s.stepThreshold < s.shrinkBelow ∧ s.shrinkBelow < s.expandAbove)
  then some .ratioThresholds
  else if !(0.0 < s.shrinkFactor ∧ s.shrinkFactor < 1.0 ∧ 1.0 < s.expandFactor) then
    some .radiusFactors
  else none

end RadiusSettings

/-- The radius of a solve. -/
structure TrustRadius (R : Type) where
  settings : RadiusSettings R
  maximum : R
  radius : R
  /-- How often the radius has shrunk without a break. -/
  shrinks : Nat := 0

namespace TrustRadius

variable {R K : Type} [Scalar R]

/-- The radius at the start of a solve from `u` with a residual of the given norm. -/
def ofStart [Entry R K] (s : RadiusSettings R) (u : Vec K) (residual : R) : TrustRadius R :=
  let reach := Scalar.greatest residual u.spread
  let maximum := s.maximum.getD (if 0.0 < reach then reach else 1.0)
  let length := u.norm
  let initial := s.initial.getD <|
    if s.scheme = .doubling then
      Scalar.least (if Scalar.same length 0.0 then 1.0 else length) maximum
    else maximum / 11.0
  { settings := s, maximum := maximum, radius := initial }

/-- The radius per length of the step in the smooth scheme. -/
def smoothFactor (threshold ratio : R) : R :=
  if threshold ≤ ratio then
    2.0 * (5.0 - 1.0 - 0.15) * Scalar.arctan (ratio - threshold) / Scalar.pi + 1.0 + 0.15
  else (1.0 - 0.15 - 0.1) * Scalar.exp (ratio - threshold) + 0.1

/-- Reduces the radius, or fails after too many reductions in a row. -/
def shrink (radius : R) : Action (Thrown R K) (TrustRadius R) Unit := do
  modify fun t => { t with radius, shrinks := t.shrinks + 1 }
  let t ← get
  if t.settings.maxShrinks < t.shrinks then
    Action.fail
      { kind := .stall
        values := [.text s!"Trust region shrunk {t.shrinks} consecutive times."]
        flag := some 1
        named := [("radius", .real t.radius)] }

/-- Keeps or enlarges the radius after a step that agreed with the model. -/
def grow (radius : R) : Action (Thrown R K) (TrustRadius R) Unit :=
  modify fun t => { t with radius, shrinks := 0 }

def updateSimple (t : TrustRadius R) (ratio length : R) :
    Action (Thrown R K) (TrustRadius R) Unit :=
  if ratio < t.settings.shrinkBelow then shrink (t.settings.shrinkFactor * t.radius)
  else
    let onBoundary : Bool := Scalar.abs (length - t.radius) < 1e-6 * t.radius
    if t.settings.expandAbove < ratio ∧ onBoundary then
      grow (Scalar.least (t.settings.expandFactor * t.radius) t.maximum)
    else grow t.radius

def updateDoubling (t : TrustRadius R) (ratio length : R) :
    Action (Thrown R K) (TrustRadius R) Unit :=
  if ratio < 0.25 then shrink (0.5 * t.radius)
  else if 0.75 ≤ ratio then
    grow (Scalar.least (Scalar.greatest t.radius (2.0 * length)) t.maximum)
  else grow t.radius

def updateSmooth (t : TrustRadius R) (ratio length : R) :
    Action (Thrown R K) (TrustRadius R) Unit :=
  let radius := smoothFactor t.settings.shrinkBelow ratio * length
  if ratio < t.settings.shrinkBelow then
    shrink (Scalar.least radius (t.settings.shrinkFactor * t.radius))
  else grow (Scalar.least (Scalar.greatest radius (1e-3 * t.radius)) t.maximum)

/-- Adjusts the radius to a trial step and answers whether the step is accepted. -/
def update (ratio length : R) : Action (Thrown R K) (TrustRadius R) Bool := do
  let t ← get
  let ratio := if Scalar.isFinite ratio then ratio else -Scalar.infinity
  match t.settings.scheme with
  | .simple => updateSimple t ratio length
  | .doubling => updateDoubling t ratio length
  | .smooth => updateSmooth t ratio length
  return t.settings.stepThreshold < ratio

end TrustRadius

end RootFinding
