import RootFinding.Run.Loop
import RootFinding.Strategy.LevenbergMarquardt
import RootFinding.Strategy.Newton
import RootFinding.Strategy.PseudoTransient
import RootFinding.Strategy.SpectralResidual
import RootFinding.Strategy.TrustRegion

/-!
# Algorithms

The algorithms that a problem can be solved with, each with its settings, and a solve with any of
them.
-/

namespace RootFinding

inductive Algorithm (σ R K : Type) where
  | newton (a : Newton σ R K)
  | pseudoTransient (a : PseudoTransient R)
  | trustRegion (a : TrustRegion R)
  | levenbergMarquardt (a : LevenbergMarquardt R)
  | spectralResidual (a : SpectralResidual σ R K)

/-- What a solve leaves behind. -/
structure Outcome (σ R K : Type) where
  solution : Solution R K
  /-- The text that was printed. -/
  printed : String
  warnings : Array String
  /-- The caller's own state. -/
  world : σ

namespace Algorithm

variable {σ R K : Type}

def name : Algorithm σ R K → String
  | newton a => a.name
  | pseudoTransient _ => PseudoTransient.name
  | trustRegion _ => TrustRegion.name
  | levenbergMarquardt _ => LevenbergMarquardt.name
  | spectralResidual _ => SpectralResidual.name

/-- The refusal of settings as a fault. -/
def ofRefusal? (r : Option Refusal) : Except Fault Unit :=
  match r with
  | none => .ok ()
  | some reason => .error (.refused reason)

variable [Scalar R]

/-- Refuses settings that no problem can be solved with. -/
def validate : Algorithm σ R K → Except Fault Unit
  | newton a => a.validate.map fun _ => ()
  | pseudoTransient a => ofRefusal? a.refusal?
  | trustRegion a => ofRefusal? a.radius.refusal?
  | levenbergMarquardt a => ofRefusal? a.refusal?
  | spectralResidual a => ofRefusal? a.refusal?

variable [Entry R K]

/-- A solve with a strategy, without the strategy's own state. -/
def outcome {X : Type} (S : Strategy σ R K X) (c : Setup σ R K) (world : σ) :
    Except (Thrown R K) (Outcome σ R K) :=
  (S.solve c world).map fun (solution, r) =>
    { solution, printed := r.printed, warnings := r.work.warnings, world := r.work.world }

/-- Solves a problem from its initial guess. -/
def solve (a : Algorithm σ R K) (c : Setup σ R K) (world : σ) :
    Except (Thrown R K) (Outcome σ R K) :=
  match a with
  | newton a => outcome a.strategy c world
  | pseudoTransient a => outcome a.strategy c world
  | trustRegion a => outcome a.strategy c world
  | levenbergMarquardt a => outcome a.strategy c world
  | spectralResidual a => outcome a.strategy c world

end Algorithm

end RootFinding
