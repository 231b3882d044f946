import RootFinding.Run.Basic

/-!
# Strategies

A strategy makes the steps of a run. It prepares a linear system and a state of its own from the
first iterate and its residual, or refuses the problem, and then advances the run by one step at a
time. A step may leave the iterate alone when it rejects a trial, and it fails with a failure of the
solve.
-/

namespace RootFinding

structure Strategy (σ R K X : Type) where
  name : String
  /-- The linear system and the own state at the start, from the first iterate and its residual. -/
  start : Setup σ R K → Vec K → Vec K → Except Fault (LinearSystem R K × X)
  step : Setup σ R K → Stepping σ R K X Unit

/-- How an algorithm wants its linear systems solved. -/
inductive SystemChoice (R : Type) where
  /-- By the form of the matrix. -/
  | byMatrix
  | named (method : String)
  | configured (method : Option SolveMethod) (settings : KrylovSettings R)

namespace SystemChoice

variable {R K : Type} [Scalar R]

/-- A linear system for a choice. A matrix that is not concrete needs the iterative method. -/
def system (c : SystemChoice R) (matrixFree : Bool) : Except Fault (LinearSystem R K) := do
  let s : LinearSystem R K ← match c with
    | byMatrix => .ok (.fresh none .standard)
    | named name => (SolveMethod.ofName name).map fun m => .fresh (some m) .standard
    | configured method settings => .ok (.fresh method settings)
  match s.method with
  | none | some .gmres => .ok s
  | some m => if matrixFree then .error (.refused (.matrixFreeMethod m.name)) else .ok s

end SystemChoice

/-- Refuses a system whose numbers of equations and unknowns differ. -/
def requireSquare {K : Type} (name : String) (u fu : Vec K) : Except Fault Unit :=
  if fu.size = u.size then .ok () else .error (.refused (.notSquare name fu.size u.size))

/-- The linear system of a strategy and the settings of its Jacobians; an unknown scheme is refused
before an unknown method. -/
def prepare {σ R K : Type} [Scalar R] (p : Problem σ R K) (scheme : String)
    (choice : SystemChoice R) (concrete : Bool := true) :
    Except Fault (LinearSystem R K × Scheme) := do
  let scheme ← Scheme.ofName scheme
  let system ← choice.system (p.jacobian.isNone && !concrete)
  return (system, scheme)

end RootFinding
