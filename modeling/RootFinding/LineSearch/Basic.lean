import RootFinding.Workspace

/-!
# Line searches

A line search chooses how much of a step to take. Besides the two built-in methods a caller can
bring a method of his own: a dialogue that evaluates the residual any number of times, sees each
answer or error, and ends with a number or an error of its own.
-/

namespace RootFinding

/-- A caller's search as a dialogue with the residual. -/
inductive Dialogue (R K : Type) where
  | answer (a : R)
  | raise (e : Thrown R K)
  | evaluate (u : Vec K) (next : Except (Thrown R K) (Vec K) → Dialogue R K)

/-- The course of a dialogue with the given residual. -/
def Dialogue.run {σ R K : Type} (F : Vec K → Work σ R K (Vec K)) : Dialogue R K → Work σ R K R
  | answer a => return a
  | raise e => throw e
  | evaluate u next => do
    let r ← (F u).attempt
    (next r).run F

/-- A point, the residual there and a step from it. -/
structure SearchPoint (K : Type) where
  u : Vec K
  fu : Vec K
  du : Vec K

inductive SearchMethod (σ R K : Type) where
  /-- The full step. -/
  | none
  /-- Backtracking until the residual has decreased enough. -/
  | armijo
  /-- Bracketing until also the slope has flattened enough. -/
  | wolfe
  /-- The caller's own method. -/
  | custom (f : SearchPoint K → σ → Dialogue R K × σ)

namespace SearchMethod

variable {σ R K : Type}

def isNone : SearchMethod σ R K → Bool
  | none => true
  | _ => false

/-- The name of a built-in method. -/
def name : SearchMethod σ R K → String
  | none => "None"
  | armijo => "armijo"
  | wolfe => "wolfe"
  | custom _ => "custom"

/-- The built-in method of a name; other names are refused. -/
def ofName : String → Except Fault (SearchMethod σ R K)
  | "armijo" => .ok armijo
  | "wolfe" => .ok wolfe
  | name => .error (.refused (.unknownSearch name))

end SearchMethod

structure LineSearch (σ R K : Type) where
  method : SearchMethod σ R K
  /-- The smallest part of a step that a built-in method answers before it gives up. -/
  least : R
  /-- The relative length of the difference for the slope. -/
  difference : R

namespace LineSearch

variable {σ R K : Type}

def standard [OfScientific R] (method : SearchMethod σ R K := .none) : LineSearch σ R K where
  method := method
  least := 1e-2
  difference := 1e-8

def active (s : LineSearch σ R K) : Bool := !s.method.isNone

/-- Why the settings of a search are refused. -/
def refusal? [Scalar R] (s : LineSearch σ R K) : Option Refusal :=
  if 0.0 < s.least ∧ s.least ≤ 1.0 then none else some .searchFloor

end LineSearch

/-- How an algorithm wants its steps searched: by a method that is named or the caller's own, with
the standard settings, or by a search that was set up before. -/
inductive SearchChoice (σ R K : Type) where
  | named (method : String)
  | configured (s : LineSearch σ R K)

/-- The search of a choice; an unknown method is refused. -/
def SearchChoice.search {σ R K : Type} [OfScientific R] :
    SearchChoice σ R K → Except Fault (LineSearch σ R K)
  | named name => (SearchMethod.ofName name).map fun m => .standard m
  | configured s => .ok s

end RootFinding
