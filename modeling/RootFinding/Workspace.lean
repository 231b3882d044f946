import RootFinding.Problem
import RootFinding.LinearSystem.Basic

/-!
# Workspaces

What the parts of a solver share: the caller's own state, the evaluations of the residual, the
stored Jacobian, the linear system and the warnings. An evaluation counts as soon as the residual is
called, whether or not it answers. An error of the residual becomes a residual failure, unless it is
a failure of a solve already.
-/

namespace RootFinding

structure Workspace (σ R K : Type) where
  /-- The caller's own state. -/
  world : σ
  system : LinearSystem R K
  /-- How often the residual was called. -/
  evaluations : Nat := 0
  /-- The shape of the first residual. -/
  residualShape : Option Shape := none
  jacobian : Option (Matrix R K) := none
  /-- How many Jacobians were built. -/
  jacobians : Nat := 0
  warnings : Array String := #[]

/-- An action on the workspace. -/
abbrev Work (σ R K α : Type) : Type := Action (Thrown R K) (Workspace σ R K) α

variable {σ R K : Type}

namespace Workspace

def warn (text : String) : Work σ R K Unit :=
  modify fun w => { w with warnings := w.warnings.push text }

/-- Calls a function of the caller. -/
def call {α β : Type} (f : Callable σ R K α β) (x : α) : Work σ R K β :=
  Action.ofFun fun w =>
    let (answer, world) := f x w.world
    (answer, { w with world })

end Workspace

/-- The failure that an error of the residual becomes. -/
def Thrown.ofResidual [Written R] : Thrown R K → Thrown R K
  | .failure f => .failure f
  | .fault e => .failure
    { kind := .residual
      values := [.text ("Residual function failed: " ++ e.text)]
      flag := some 1
      details := some e.name
      cause := some e.name }

namespace Problem

variable [Scalar R] [Entry R K]

/-- The array that a residual function fills: zeros, complex ones at a complex point. -/
def emptyResidual (p : Problem σ R K) (u : Vec K) : Tensor K :=
  ⟨p.residualShape, Vec.replicate (Tensor.sizeOf p.residualShape) (Entry.zeroAs u.isReal)⟩

/-- The residual at a vector of unknowns, as an array. -/
def evaluate (p : Problem σ R K) (u : Vec K) : Work σ R K (Vec K) := do
  let x ← Action.ofFault (p.restructure u)
  modify fun w => { w with evaluations := w.evaluations + 1 }
  let answer := match p.residual with
    | .returning f => Workspace.call f x
    | .filling f => Workspace.call f (p.emptyResidual u, x)
  let t ← answer.mapError Thrown.ofResidual
  modify fun w => { w with residualShape := some (w.residualShape.getD t.shape) }
  return t.entries

/-- A residual as the caller sees it, in the shape of the first one where the sizes agree. -/
def residualToUser (p : Problem σ R K) (first : Option Shape) (f : Vec K) :
    Except Fault (Tensor K) :=
  match first with
  | some shape =>
    if Tensor.sizeOf shape = f.size then p.toUser f shape else p.toUser f [f.size]
  | none => p.toUser f [f.size]

end Problem

end RootFinding
