import RootFinding.Settings.Algorithm

/-!
# Settings in reports

One line that names an algorithm, or a part of one, with its main settings. The settings are shown
as they were given, a whole number without a fraction, and those that were left out by their
standard values.
-/

namespace RootFinding

variable {σ R K : Type} [Written R] [OfScientific R]

namespace Settings

/-- A name with settings in round brackets. -/
def describe (name : String) (fields : List (String × String)) : String :=
  name ++ "(" ++ String.intercalate ", " (fields.map fun (k, x) => k ++ "=" ++ x) ++ ")"

def describeController (s : Settings σ R K) : String :=
  let d : StepController R := .standard
  describe "IController"
    [("qmin", s.shown "qmin" (.real d.qmin)), ("qmax", s.shown "qmax" (.real d.qmax)),
     ("qsteady_min", s.shown "qsteady_min" (.real d.steadyMin)),
     ("qsteady_max", s.shown "qsteady_max" (.real d.steadyMax)),
     ("gamma", s.shown "gamma" (.real d.gamma)), ("qold", s.shown "qold" (.real d.qold))]

def describeTermination (s : Settings σ R K) : String :=
  describe "TerminationCondition" [("mode", s.shown "mode" (.text "abs_norm"))]

def describeSearch (s : Settings σ R K) : String :=
  describe "LineSearch" [("method", s.shown "method" .absent)]

/-- The line search of an algorithm: a group of settings, or the method alone. -/
def describeOwnSearch (s : Settings σ R K) : String :=
  match s.get "linesearch" with
  | .group fields => describeSearch fields
  | method => describeSearch [("method", method)]

end Settings

/-- The settings of an algorithm that its description shows. -/
def Algorithm.mainFields (s : Settings σ R K) : Algorithm σ R K → List (String × String)
  | newton _ =>
    [("autodiff", s.shown "autodiff" (.text "2-point")), ("linesearch", s.describeOwnSearch),
     ("reuse", s.shown "reuse" (.truth false))]
  | pseudoTransient _ =>
    [("alpha_initial", s.shown "alpha_initial" (.real 1e-3)),
     ("controller", (s.group "controller").describeController)]
  | trustRegion a => [("radius_update_scheme", a.radius.scheme.name)]
  | levenbergMarquardt _ =>
    [("damping_initial", s.shown "damping_initial" (.real 1.0)),
     ("geodesic_acceleration", s.shown "geodesic_acceleration" (.truth false))]
  | spectralResidual _ =>
    [("σ_1", s.shown "sigma_1" (.real 1.0)), ("M", s.shown "M" (.whole 10)),
     ("n_exp", s.shown "n_exp" (.whole 2))]

/-- An algorithm that was made of some settings, as a report shows it. -/
def Algorithm.describe (a : Algorithm σ R K) (s : Settings σ R K) : String :=
  Settings.describe a.name (a.mainFields s)

end RootFinding
