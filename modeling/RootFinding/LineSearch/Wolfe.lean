import RootFinding.LineSearch.Basic

/-!
# Bracketing search

Looks for a step with enough decrease and a slope that is flat enough. The search keeps an interval
with the best step at one end and moves to the minimum of a cubic or a parabola through its ends,
until the conditions hold or the interval cannot shrink any more.
-/

namespace RootFinding.Wolfe

variable {R S : Type} [Scalar R]

/-- A step with the merit and the slope there. -/
structure Sample (R : Type) where
  step : R
  value : R
  slope : R

/-- The state between trials: the best sample, the other end, whether they enclose a minimum, the
stage, the limits of the next trial and the widths of the last two intervals. -/
structure State (R : Type) where
  best : Sample R
  other : Sample R
  bracketed : Bool
  firstStage : Bool
  low : R
  high : R
  width : R
  lastWidth : R

/-- What a search is asked for. -/
structure Goal (R : Type) where
  start : Sample R
  decrease : R
  flatness : R
  spread : R
  least : R
  most : R

/-- The slope of the line that the merit must stay below. -/
def Goal.slope (g : Goal R) : R := g.decrease * g.start.slope

/-- The largest of three moduli. -/
def largest (a b c : R) : R :=
  Scalar.greatest (Scalar.greatest (Scalar.abs a) (Scalar.abs b)) (Scalar.abs c)

/-- The parameters `theta` and `gamma` of the cubic through two samples. The radicand is lifted to
zero when `lifted`, and `gamma` changes sign when `turned`. -/
def cubicParameters (a b : Sample R) (lifted turned : Bool) : R × R :=
  let theta := 3.0 * (a.value - b.value) / (b.step - a.step) + a.slope + b.slope
  let s := largest theta a.slope b.slope
  let radicand := Scalar.square (theta / s) - a.slope / s * (b.slope / s)
  let gamma := s * Scalar.sqrt (if lifted then Scalar.greatest 0.0 radicand else radicand)
  (theta, if turned then -gamma else gamma)

/-- The secant step from `b` toward `a`. -/
def secant (a b : Sample R) : R :=
  b.step + b.slope / (b.slope - a.slope) * (a.step - b.step)

/-- Whether `a` is nearer to `x` than `b` is. -/
def nearer (x a b : R) : Bool := Scalar.abs (a - x) < Scalar.abs (b - x)

/-- The next trial when the merit rose: the cubic step if it is nearer to the best step than the
parabolic one, otherwise the mean of both. -/
def stepRisen (a b : Sample R) : R :=
  let (theta, gamma) := cubicParameters a b false (b.step < a.step)
  let r := ((gamma - a.slope) + theta) / (((gamma - a.slope) + gamma) + b.slope)
  let c := a.step + r * (b.step - a.step)
  let q := a.step +
    a.slope / ((a.value - b.value) / (b.step - a.step) + a.slope) / 2.0 * (b.step - a.step)
  if Scalar.abs (c - a.step) ≤ Scalar.abs (q - a.step) then c else c + (q - c) / 2.0

/-- The next trial when the slope changed sign: of the cubic and the secant step the farther one. -/
def stepTurned (a b : Sample R) : R :=
  let (theta, gamma) := cubicParameters a b false (a.step < b.step)
  let r := ((gamma - b.slope) + theta) / (((gamma - b.slope) + gamma) + a.slope)
  let c := b.step + r * (a.step - b.step)
  let q := secant a b
  if nearer b.step q c then c else q

/-- The next trial when the slope kept its sign and flattened. -/
def stepFlattened (s : State R) (b : Sample R) : R :=
  let a := s.best
  let (theta, gamma) := cubicParameters a b true (a.step < b.step)
  let r := ((gamma - b.slope) + theta) / ((gamma + (a.slope - b.slope)) + gamma)
  let c :=
    if r < 0.0 ∧ !Scalar.same gamma 0.0 then b.step + r * (a.step - b.step)
    else if a.step < b.step then s.high
    else s.low
  let q := secant a b
  if s.bracketed then
    let t := if nearer b.step c q then c else q
    let limit := b.step + 0.66 * (s.other.step - b.step)
    if a.step < b.step then Scalar.least limit t else Scalar.greatest limit t
  else
    Scalar.clip (if nearer b.step q c then c else q) s.low s.high

/-- The next trial when the slope kept its sign and did not flatten. -/
def stepSteep (s : State R) (b : Sample R) : R :=
  if s.bracketed then
    let a := s.other
    let theta := 3.0 * (b.value - a.value) / (a.step - b.step) + a.slope + b.slope
    let m := largest theta a.slope b.slope
    let root := m * Scalar.sqrt (Scalar.square (theta / m) - a.slope / m * (b.slope / m))
    let gamma := if a.step < b.step then -root else root
    let r := ((gamma - b.slope) + theta) / (((gamma - b.slope) + gamma) + a.slope)
    b.step + r * (a.step - b.step)
  else if s.best.step < b.step then s.high
  else s.low

/-- The interval after a trial, and the next trial. -/
def advance (s : State R) (b : Sample R) : State R × R :=
  let a := s.best
  let turn := Scalar.sign b.slope * Scalar.sign a.slope
  if a.value < b.value then
    ({ s with other := b, bracketed := true }, stepRisen a b)
  else if turn < 0.0 then
    ({ s with best := b, other := a, bracketed := true }, stepTurned a b)
  else if Scalar.abs b.slope < Scalar.abs a.slope then
    ({ s with best := b }, stepFlattened s b)
  else ({ s with best := b }, stepSteep s b)

/-- The sample with a line of the given slope taken away from the merit. -/
def Sample.tilt (a : Sample R) (slope : R) : Sample R :=
  { a with value := a.value - a.step * slope, slope := a.slope - slope }

/-- The sample with a line of the given slope added to the merit. -/
def Sample.untilt (a : Sample R) (slope : R) : Sample R :=
  { a with value := a.value + a.step * slope, slope := a.slope + slope }

/-- As `advance`, on the merit less the line that it must stay below. -/
def advanceTilted (g : Goal R) (s : State R) (b : Sample R) : State R × R :=
  let (t, step) := advance
    { s with best := s.best.tilt g.slope, other := s.other.tilt g.slope } (b.tilt g.slope)
  ({ t with best := t.best.untilt g.slope, other := t.other.untilt g.slope }, step)

/-- The state before the first trial. -/
def Goal.begin (g : Goal R) (first : R) : State R where
  best := { g.start with step := 0.0 }
  other := { g.start with step := 0.0 }
  bracketed := false
  firstStage := true
  low := 0.0
  high := first + 4.0 * first
  width := g.most - g.least
  lastWidth := (g.most - g.least) / 0.5

/-- The outcome of one trial: the search ends with or without a step, or goes on. -/
inductive Verdict (R : Type) where
  | found
  | failed
  | again (s : State R) (step : R)

/-- Whether the interval cannot shrink any more, or a trial at a limit ends the search. -/
def exhausted (g : Goal R) (s : State R) (b : Sample R) : Bool :=
  let test := g.start.value + b.step * g.slope
  (s.bracketed && (b.step ≤ s.low || s.high ≤ b.step)) ||
  (s.bracketed && s.high - s.low ≤ g.spread * s.high) ||
  (Scalar.same b.step g.most && b.value ≤ test && b.slope ≤ g.slope) ||
  (Scalar.same b.step g.least && (test < b.value || g.slope ≤ b.slope))

/-- Whether a trial has enough decrease and a slope that is flat enough. -/
def satisfied (g : Goal R) (b : Sample R) : Bool :=
  b.value ≤ g.start.value + b.step * g.slope && Scalar.abs b.slope ≤ g.flatness * -g.start.slope

/-- The widths after a trial, and the trial moved to the middle of an interval that shrinks too
slowly. -/
def narrow (s : State R) (step : R) : State R × R :=
  if s.bracketed then
    let gap := Scalar.abs (s.other.step - s.best.step)
    let step :=
      if 0.66 * s.lastWidth ≤ gap then s.best.step + 0.5 * (s.other.step - s.best.step) else step
    ({ s with lastWidth := s.width, width := gap }, step)
  else (s, step)

/-- The limits of the next trial. -/
def limit (s : State R) (step : R) : State R :=
  if s.bracketed then
    { s with low := Scalar.least s.best.step s.other.step
             high := Scalar.greatest s.best.step s.other.step }
  else
    { s with low := step + 1.1 * (step - s.best.step), high := step + 4.0 * (step - s.best.step) }

/-- The verdict on a trial. -/
def judge (g : Goal R) (s : State R) (b : Sample R) : Verdict R :=
  let test := g.start.value + b.step * g.slope
  let s := if s.firstStage && b.value ≤ test && 0.0 ≤ b.slope
    then { s with firstStage := false } else s
  if satisfied g b then .found
  else if exhausted g s b then .failed
  else
    let (s, step) :=
      if s.firstStage && b.value ≤ s.best.value && test < b.value then advanceTilted g s b
      else advance s b
    let (s, step) := narrow s step
    let s := limit s step
    let step := Scalar.clip step g.least g.most
    let stuck := s.bracketed &&
      (step ≤ s.low || s.high ≤ step || s.high - s.low ≤ g.spread * s.high)
    .again s (if stuck then s.best.step else step)

/-- Trials until the verdict, with at most the given number of verdicts. -/
def trials {ε : Type} (phi slope : R → Action ε S R) (g : Goal R) :
    Nat → State R → R → Action ε S (Option R)
  | fuel, s, step => do
    if !Scalar.isFinite step then return none
    let value ← phi step
    let d ← slope step
    match fuel with
    | 0 => return none
    | fuel + 1 =>
      match judge g s ⟨step, value, d⟩ with
      | .found => return some step
      | .failed => return none
      | .again s next => trials phi slope g fuel s next

/-- The step that the search finds, if there is one. -/
def search {ε : Type} (phi slope : R → Action ε S R) (f0 least : R) : Action ε S (Option R) := do
  let d0 ← slope 0.0
  let g : Goal R :=
    { start := ⟨0.0, f0, d0⟩, decrease := 1e-4, flatness := 0.9, spread := 1e-2
      least := least, most := 50.0 }
  if 1.0 < least ∨ g.most < 1.0 ∨ 0.0 ≤ d0 then return none
  trials phi slope g 99 (g.begin 1.0) 1.0

end RootFinding.Wolfe
