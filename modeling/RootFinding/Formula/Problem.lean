import RootFinding.Formula.Basic
import RootFinding.LineSearch.Basic
import RootFinding.Strategy.Tolerance

/-!
# Functions by formulas

Residuals, Jacobians, search methods and tolerance rules that are given by formulas. They never look
at the caller's own state.
-/

namespace RootFinding.Formula

variable {σ : Type}

/-- A function that leaves the caller's state alone. -/
def pureCallable {α β : Type} (f : α → Except (Thrown Numeral Number) β) :
    Callable σ Numeral Number α β :=
  fun x w => (f x, w)

/-- The scope of a function of the unknowns `x`. -/
def scope (p : Array Number) (x : Tensor Number) : Scope := { u := x.entries.toList.toArray, p }

/-- The shape of a residual where none is given: that of the unknowns, if the sizes agree. -/
def naturalShape (x : Tensor Number) (size : Nat) : Shape :=
  if size = x.entries.size then x.shape else [size]

/-- A residual that is answered, in the given shape or the natural one. -/
def returning (c : Components) (p : Array Number) (shape : Option Shape) :
    ResidualFunction σ Numeral Number :=
  .returning <| pureCallable fun x => do
    let values := Vec.ofList (← c.eval (scope p x))
    (Tensor.reshape values (shape.getD (naturalShape x values.size))).mapError Thrown.fault

/-- Values as the entries of an array that is real or complex already. -/
def intoArray (target : Tensor Number) (values : List Number) : Tensor Number :=
  let convert : Number → Number :=
    if target.entries.isReal then fun z => .real z.re else Number.toComplex
  { target with entries := .ofList (values.map convert) }

/-- A residual that fills an array; the number of values has to be right. -/
def filling (c : Components) (p : Array Number) : ResidualFunction σ Numeral Number :=
  .filling <| pureCallable fun (target, x) => do
    let values ← c.eval (scope p x)
    if values.length ≠ target.entries.size then
      throw (.fault (.raised .value "bad residual size"))
    return intoArray target values

/-- Rows of values as a matrix; all are complex as soon as one is. -/
def matrixOf (rows : List (List Number)) : Except (Thrown Numeral Number) (Dense Number) :=
  let isReal := rows.all (·.all Number.isReal)
  match Grid.ofRows? (if isReal then rows else rows.map (·.map Number.toComplex)) with
  | some A => .ok A
  | none => .error (.fault .ragged)

/-- What a Jacobian by formulas answers. -/
inductive JacobianForm where
  | dense
  | sparse
  /-- The rows one after another, as one list. -/
  | row
  /-- The first entry alone. -/
  | number

def JacobianForm.value (form : JacobianForm) (A : Dense Number) : JacobianValue Number :=
  match form with
  | dense => .dense A
  | sparse => .sparse (Sparse.ofDense A)
  | row => .row (.ofList A.rows.flatten)
  | number => .number (A.get Entry.zero 0 0)

/-- A Jacobian with a formula for each entry. -/
def jacobian (form : JacobianForm) (rows : List (List Formula)) (p : Array Number) :
    Callable σ Numeral Number (Tensor Number) (JacobianValue Number) :=
  pureCallable fun x => do
    let A ← matrixOf (← rows.mapM (·.mapM (Formula.eval (scope p x))))
    return form.value A

/-- A diagonal Jacobian with one formula for the diagonal. -/
def diagonal (f : Formula) (p : Array Number) :
    Callable σ Numeral Number (Tensor Number) (JacobianValue Number) :=
  pureCallable fun x => do
    let d ← (Components.each f none).eval (scope p x)
    let rows := d.mapIdx fun i a => d.mapIdx fun j _ => if i = j then a else Entry.zero
    return .dense (← matrixOf rows)

/-- A search method that answers a formula of the point. -/
def search (f : Formula) : SearchMethod σ Numeral Number :=
  .custom fun q w =>
    (match f.eval { u := q.u.toList.toArray } with
      | .ok z => .answer (Entry.re z)
      | .error e => .raise e, w)

/-- A search method that answers `part` if the residual is smaller after that part of the step, else
`other`. -/
def trialSearch (part other : Float) : SearchMethod σ Numeral Number :=
  .custom fun q w =>
    (.evaluate (q.u - Numeral.real part • q.du) fun
      | .ok f => .answer (.real (if f.norm < q.fu.norm then part else other))
      | .error e => .raise e, w)

/-- A tolerance rule by a formula. -/
def tolerance (f : Formula) : ToleranceRule σ Numeral Number :=
  pureCallable fun x =>
    (f.eval { u := x.u.toList.toArray, first := x.first.toFloat, step := x.step }).map Entry.re

end RootFinding.Formula
