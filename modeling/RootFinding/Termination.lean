import RootFinding.Vec
import RootFinding.Failure

/-!
# Termination

When a solve has converged, diverged or stalled. The plain modes look at the residual entry by entry
or in norm, against a fixed bound or one relative to the residual plus the iterate. The safe modes
also stop a solve whose residual has grown too far or has hardly changed for some steps, and they
remember the best iterate. In every mode a value that is not finite means divergence, and the last
finite iterate is remembered.
-/

namespace RootFinding

inductive TerminationMode where
  | abs
  | rel
  | absNorm
  | relNorm
  | absSafe
  | relSafe
  deriving DecidableEq, Repr

namespace TerminationMode

def name : TerminationMode → String
  | abs => "abs"
  | rel => "rel"
  | absNorm => "abs_norm"
  | relNorm => "rel_norm"
  | absSafe => "abs_safe"
  | relSafe => "rel_safe"

def all : List TerminationMode := [abs, rel, absNorm, relNorm, absSafe, relSafe]

/-- The mode of a name; other names are refused. -/
def ofName (name : String) : Except Fault TerminationMode :=
  match all.find? (·.name == name) with
  | some m => .ok m
  | none => .error (.refused (.unknownMode name))

def isSafe : TerminationMode → Bool
  | absSafe | relSafe => true
  | _ => false

/-- Whether the bound on the residual is relative. -/
def isRelative : TerminationMode → Bool
  | rel | relNorm | relSafe => true
  | _ => false

end TerminationMode

structure Termination (R : Type) where
  mode : TerminationMode := .absNorm
  /-- How often the first residual may be exceeded in the safe modes. -/
  protectiveThreshold : R
  /-- The number of steps over which a safe mode looks for progress. -/
  patienceSteps : Int := 100
  patienceMultiplier : R
  /-- The ratio of the largest to the smallest residual that still counts as no progress. -/
  minMaxFactor : R

namespace Termination

variable {R : Type} [Scalar R]

def standard : Termination R where
  protectiveThreshold := 1e3
  patienceMultiplier := 3.0
  minMaxFactor := 1.3

/-- Why the settings are refused. -/
def refusal? (t : Termination R) : Option Refusal :=
  if t.patienceSteps < 1 then some .patience else none

end Termination

/-- The checks of one solve. -/
structure Checker (R K : Type) where
  settings : Termination R
  abstol : R
  reltol : R
  norm : Vec K → R
  /-- The norm of the first residual. -/
  initial : R
  /-- The latest norms of residuals, the newest last, as far back as the patience reaches. -/
  history : List R := []
  best : Vec K
  bestNorm : R
  lastFinite : Vec K

namespace Checker

variable {R K : Type} [Scalar R] [Entry R K]

/-- The checks of a solve that starts at `u` with the residual `fu`. -/
def ofStart (t : Termination R) (fu u : Vec K) (abstol reltol : R) (norm : Vec K → R) :
    Checker R K :=
  { settings := t, abstol, reltol, norm
    initial := norm fu, best := u, bestNorm := norm fu, lastFinite := u }

def isSafe (c : Checker R K) : Bool := c.settings.mode.isSafe

/-- The iterate to return after a divergence or a stall. -/
def fallback (c : Checker R K) : Vec K := if c.isSafe then c.best else c.lastFinite

/-- The bound on the norm of the residual. -/
def criterion (c : Checker R K) (fu u : Vec K) : Except Fault R :=
  if c.settings.mode.isRelative then do
    let sum ← Vec.align (· + ·) fu u
    return c.reltol * c.norm sum
  else .ok c.abstol

/-- Whether every entry of the residual is below its bound. -/
def entriesConverged (c : Checker R K) (fu u : Vec K) : Except Fault Bool :=
  if c.settings.mode.isRelative then do
    let sum ← Vec.align (· + ·) fu u
    let below ← Vec.align (fun (f s : K) => decide (Entry.abs f ≤ c.reltol * Entry.abs s)) fu sum
    return below.all id
  else .ok (fu.all fun f => Entry.abs f ≤ c.abstol)

/-- Whether the history shows no progress with the newest residual still far from the bound. -/
def isStuck (c : Checker R K) (objective criterion : R) : Bool :=
  match c.history with
  | [] => false
  | h :: rest =>
    (c.history.length : Int) == c.settings.patienceSteps &&
    c.settings.patienceMultiplier * criterion ≤ objective &&
    rest.foldl Scalar.greatest h < c.settings.minMaxFactor * rest.foldl Scalar.least h

/-- The history with one more residual, and without those beyond the patience. -/
def remember (c : Checker R K) (objective : R) : List R :=
  let all := c.history ++ [objective]
  all.drop (all.length - c.settings.patienceSteps.toNat)

/-- The further checks of the safe modes, on a residual that has not converged. -/
def checkProgress (objective criterion : R) (u : Vec K) :
    Action (Thrown R K) (Checker R K) Unit := do
  let c ← get
  if objective < c.bestNorm then set { c with best := u, bestNorm := objective }
  if c.settings.protectiveThreshold * c.initial < objective then
    Action.fail
      { kind := .divergence
        values := [.text "Residual norm exceeded protective threshold."]
        flag := some 2
        named := [("objective", .real objective), ("initial", .real c.initial)] }
  modify fun c => { c with history := c.remember objective }
  let c ← get
  if c.isStuck objective criterion then
    Action.fail
      { kind := .stall
        values := [.text s!"No significant progress in the last {
          c.settings.patienceSteps} steps."]
        flag := some 1
        named := [("objective", .real objective)] }

/-- Whether the solve has converged at `u` with the residual `fu`, where `previous` is the iterate
before the last step. -/
def check (fu u previous : Vec K) : Action (Thrown R K) (Checker R K) Bool := do
  let c ← get
  if !(fu.isFinite && u.isFinite) then
    let step ← Action.ofFault (Vec.align (· - ·) u previous)
    Action.fail
      { kind := .divergence
        values := [.text "Non-finite values in u or F(u)."]
        flag := some 1
        named := [("step_norm", .real (c.norm step))] }
  set { c with lastFinite := u }
  match c.settings.mode with
  | .abs | .rel => Action.ofFault (c.entriesConverged fu u)
  | _ =>
    let objective := c.norm fu
    let criterion ← Action.ofFault (c.criterion fu u)
    if objective ≤ criterion then return true
    if c.isSafe then checkProgress objective criterion u
    return false

end Checker

end RootFinding
