import RootFinding.Matrix.Dense
import RootFinding.Failure

/-!
# Problems

A problem is a residual function and an initial guess, with an optional analytic Jacobian and an
optional pattern of the places where the Jacobian may differ from zero. The functions are the
caller's: they see and change the caller's own state `σ`, so a call may answer differently each
time, and any call may raise an error instead of answering.
-/

namespace RootFinding

/-- A function of the caller: it answers or raises, and leaves the caller's state changed. -/
abbrev Callable (σ R K α β : Type) : Type := α → σ → Except (Thrown R K) β × σ

/-- The two forms of a residual function. -/
inductive ResidualFunction (σ R K : Type) where
  /-- Answers the residual at a point. -/
  | returning (f : Callable σ R K (Tensor K) (Tensor K))
  /-- Fills an array of zeros with the residual at a point. -/
  | filling (f : Callable σ R K (Tensor K × Tensor K) (Tensor K))

/-- What an analytic Jacobian answers. An array with more axes never has the shape of a Jacobian: a
function that answers one counts as raising the failure of its shape. -/
inductive JacobianValue (K : Type) where
  | dense (A : Dense K)
  | sparse (A : Sparse K)
  /-- A plain list of entries. -/
  | row (v : Vec K)
  /-- A single number. -/
  | number (x : K)

/-- An initial guess as it is given. -/
inductive Guess (K : Type) where
  | numbers (t : Tensor K)
  /-- Texts, the longest of the given length. -/
  | texts (longest : Nat)
  | ragged

structure Problem (σ R K : Type) where
  residual : ResidualFunction σ R K
  guess : Tensor K
  jacobian : Option (Callable σ R K (Tensor K) (JacobianValue K)) := none
  /-- The places where the Jacobian may differ from zero. -/
  pattern : Option (Grid Bool) := none
  /-- Whether the residual may have another length than the guess. -/
  leastSquares : Bool := false
  /-- The shape of the residual, where it differs from that of the guess. -/
  prototype : Option Shape := none

namespace Problem

variable {σ R K : Type}

/-- The guess as an array of numbers; a guess without entries is refused. -/
def guessOf : Guess K → Except Fault (Tensor K)
  | .ragged => .error .ragged
  | .texts longest => .error (.refused (.guessNotNumeric longest))
  | .numbers t => if t.entries.size = 0 then .error (.refused .guessEmpty) else .ok t

/-- The number of unknowns. -/
def size (p : Problem σ R K) : Nat := p.guess.entries.size

/-- Whether the unknown is a single number, not a list of numbers. -/
def isScalar (p : Problem σ R K) : Bool := p.guess.isScalar

/-- Whether the residual fills an array that it is given. -/
def inPlace (p : Problem σ R K) : Bool :=
  match p.residual with
  | .returning _ => false
  | .filling _ => true

/-- The shape of the array that a residual fills. -/
def residualShape (p : Problem σ R K) : Shape :=
  match p.leastSquares, p.prototype with
  | true, some shape => shape
  | _, _ => p.guess.shape

/-- A vector of unknowns in the shape of the guess. -/
def restructure (p : Problem σ R K) (v : Vec K) : Except Fault (Tensor K) :=
  Tensor.reshape v p.guess.shape

/-- A vector as the caller sees it: a number for a scalar problem, else in the given shape. -/
def toUser (p : Problem σ R K) (v : Vec K) (shape : Shape) : Except Fault (Tensor K) :=
  if p.isScalar && v.size == 1 then .ok ⟨[], v⟩ else Tensor.reshape v shape

end Problem

end RootFinding
