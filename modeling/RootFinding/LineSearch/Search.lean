import RootFinding.LineSearch.Armijo
import RootFinding.LineSearch.Wolfe

/-!
# Searching along a step

The built-in methods look at the square of the residual's norm along the step; a value that is not
finite counts as infinite. The last value is kept, so that asking for it again costs no evaluation.
When a built-in method finds nothing the full step is taken and a warning is given. A caller's
method has to answer a number above zero and at most one.
-/

namespace RootFinding.LineSearch

variable {σ R K : Type} [Scalar R] [Entry R K]

/-- The last step that was tried, with its merit. -/
structure Memo (R : Type) where
  step : R
  merit : R

/-- An action that also keeps the last merit. -/
abbrev Probe (σ R K α : Type) : Type := Action (Thrown R K) (Workspace σ R K × Memo R) α

def Probe.ofWork {α : Type} (a : Work σ R K α) : Probe σ R K α :=
  a.within (·.1) fun w s => (w, s.2)

/-- The square of the norm of the residual after a part of the step. -/
def meritAt (F : Vec K → Work σ R K (Vec K)) (p : SearchPoint K) (s : R) : Work σ R K R := do
  let u ← Action.ofFault (Vec.align (· - ·) p.u (s • p.du))
  let f ← F u
  return Scalar.square f.norm

/-- The merit after a part of the step, infinite when it is not finite. -/
def phi (F : Vec K → Work σ R K (Vec K)) (p : SearchPoint K) (s : R) : Probe σ R K R := do
  let memo := (← get).2
  if Scalar.same memo.step s then return memo.merit
  let m ← Probe.ofWork (meritAt F p s)
  let m := if Scalar.isFinite m then m else Scalar.infinity
  modify fun (w, _) => (w, ⟨s, m⟩)
  return m

/-- The slope of the merit, by a difference of the given length relative to the point. -/
def slope (F : Vec K → Work σ R K (Vec K)) (p : SearchPoint K) (size difference s : R) :
    Probe σ R K R := do
  let ds := (Scalar.abs s + size + 1.0) * difference
  let ahead ← Probe.ofWork (meritAt F p (s + ds))
  let here ← phi F p s
  return (ahead - here) / ds

/-- The part of the step that a built-in method accepts, if it finds one. -/
def builtIn (s : LineSearch σ R K) (F : Vec K → Work σ R K (Vec K)) (p : SearchPoint K)
    (merit size : R) : Probe σ R K (Option R) :=
  match s.method with
  | .wolfe => Wolfe.search (phi F p) (slope F p size s.difference) merit s.least
  | _ => Armijo.search (phi F p) merit (-merit) s.least

/-- The part of the step that a built-in method answers. -/
def searchBuiltIn (s : LineSearch σ R K) (F : Vec K → Work σ R K (Vec K)) (p : SearchPoint K) :
    Work σ R K R := do
  let merit := Scalar.square p.fu.norm
  let length := p.du.norm
  if Scalar.same length 0.0 || Scalar.same merit 0.0 then return 1.0
  let found ← Action.ofFun fun w =>
    let (r, w, _) := (builtIn s F p merit (p.u.norm / length)).eval (w, ⟨0.0, merit⟩)
    (r, w)
  match found with
  | some a => return Scalar.least a 1.0
  | none =>
    Workspace.warn s!"Line search '{s.method.name}' failed, using full step."
    return 1.0

/-- The failure that an error of a caller's search becomes. -/
def ofError : Thrown R K → Thrown R K
  | .failure f => .failure f
  | .fault e => .failure
    { kind := .general
      values := [.text ("Line search failed: " ++ e.text)]
      flag := some 2
      details := some e.name
      cause := some e.name }

/-- The part of the step that a caller's method answers. -/
def searchCustom (f : SearchPoint K → σ → Dialogue R K × σ) (F : Vec K → Work σ R K (Vec K))
    (p : SearchPoint K) : Work σ R K R := do
  let dialogue ← Workspace.call (fun p w => ((.ok (f p w).1), (f p w).2)) p
  let a ← (dialogue.run F).mapError ofError
  if 0.0 < a ∧ a ≤ 1.0 then return a
  Action.fail
    { kind := .general
      values := [.text ("Line search returned α = " ++ Written.write .shortest a ++
        ", expected 0 < α <= 1.")]
      flag := some 1 }

/-- The part of the step `p.du` to take from `p.u`, where `F` evaluates the residual. -/
def search (s : LineSearch σ R K) (F : Vec K → Work σ R K (Vec K)) (p : SearchPoint K) :
    Work σ R K R :=
  match s.method with
  | .none => return 1.0
  | .custom f => searchCustom f F p
  | _ => searchBuiltIn s F p

end RootFinding.LineSearch
