import RootFinding.LinearSystem.Basic
import RootFinding.Failure

/-!
# Generalised minimal residuals

The restarted iteration that solves a linear system by products with its matrix alone. Each cycle
builds an orthonormal basis of the vectors reached so far and keeps the residual of the projected
problem by rotations; a cycle ends when that residual is small enough, when the basis closes, or at
the restart. The products are actions, so one of them may fail.
-/

namespace RootFinding.Gmres

variable {R K S : Type} [Scalar R] [Entry R K]

/-- A rotation of two coordinates. -/
structure Rotation (R K : Type) where
  cosine : R
  sine : K

namespace Rotation

/-- Both coordinates after the rotation. -/
def apply (r : Rotation R K) (x y : K) : K × K :=
  (Entry.ofReal r.cosine * x + r.sine * y, Entry.ofReal r.cosine * y - Entry.conj r.sine * x)

/-- The rotation that takes `(f, g)` to `(length, 0)`, and that length. -/
def annihilating (f g : K) : Rotation R K × K :=
  if Entry.isZero g then (⟨1.0, Entry.zero⟩, f)
  else if Entry.isZero f then
    (⟨0.0, Entry.conj g / Entry.ofReal (Entry.abs g)⟩, Entry.ofReal (Entry.abs g))
  else
    let size : R := Scalar.sqrt (Entry.normSq f + Entry.normSq g)
    let unit : K := f / Entry.ofReal (Entry.abs f)
    (⟨Entry.abs f / size, unit * Entry.conj g / Entry.ofReal size⟩, unit * Entry.ofReal size)

end Rotation

/-- What a cycle has built: basis vectors, columns of the triangular factor, rotations and the
rotated right-hand side, each with its newest element last. -/
structure Cycle (R K : Type) where
  basis : List (Vec K)
  columns : List (List K)
  rotations : List (Rotation R K)
  solved : List K
  pending : K
  residual : R
  closed : Bool

/-- Takes the components along the basis out of `w`, one after the other. -/
def orthogonalize : List (Vec K) → Vec K → List K × Vec K
  | [], w => ([], w)
  | v :: vs, w =>
    let h := Vec.inner v w
    let (hs, w) := orthogonalize vs (w - Vec.scale h v)
    (h :: hs, w)

/-- The column after the earlier rotations. -/
def rotate : List (Rotation R K) → List K → List K
  | r :: rs, x :: y :: rest =>
    let (x, y) := r.apply x y
    x :: rotate rs (y :: rest)
  | _, column => column

/-- One step of a cycle from the newest basis vector, with the product of the matrix with it. -/
def Cycle.extend (c : Cycle R K) (w : Vec K) : Cycle R K :=
  let before : R := w.norm
  let (hs, w) := orthogonalize c.basis w
  let after : R := w.norm
  let closed : Bool := after ≤ Scalar.epsilon * before
  let next : Vec K := if closed then w else (1.0 / after) • w
  let below : K := if closed then Entry.zero else Entry.ofReal after
  let column := rotate c.rotations (hs ++ [below])
  let (last, front) := (column.drop (column.length - 2), column.take (column.length - 2))
  let (r, corner) := Rotation.annihilating (last.getD 0 Entry.zero) (last.getD 1 Entry.zero)
  let pending := -(Entry.conj r.sine) * c.pending
  { basis := c.basis ++ [next]
    columns := c.columns ++ [front ++ [corner]]
    rotations := c.rotations ++ [r]
    solved := c.solved ++ [Entry.ofReal r.cosine * c.pending]
    pending := pending
    residual := Entry.abs pending
    closed := closed }

/-- A cycle of at most the given number of steps. -/
def Cycle.run (apply : Vec K → Action (Thrown R K) S (Vec K)) (tolerance : R) :
    Nat → Cycle R K → Action (Thrown R K) S (Cycle R K)
  | 0, c => return c
  | n + 1, c => do
    let w ← apply (c.basis.getLastD (.ofList []))
    let c := c.extend w
    if c.residual ≤ tolerance ∨ c.closed then return c else Cycle.run apply tolerance n c

/-- Back substitution over the columns of the triangular factor, the newest first. Coordinates that
are zero are not divided. -/
def backSubstitute : List (List K) → List K → List K
  | [], _ => []
  | column :: older, y =>
    let k := older.length
    let last := y.getD k Entry.zero
    let value := if Entry.isZero last then last else last / column.getD k Entry.zero
    let front := if Entry.isZero last then y.take k
      else List.zipWith (fun a h => a - value * h) (y.take k) column
    backSubstitute older front ++ [value]

/-- The coordinates of the correction in the basis. -/
def Cycle.coordinates (c : Cycle R K) : List K :=
  let k := c.columns.length - 1
  let corner := (c.columns.getLastD []).getD k Entry.zero
  let y := if Entry.isZero corner then c.solved.set k Entry.zero else c.solved
  backSubstitute c.columns.reverse y

/-- The correction of the solution. -/
def Cycle.correction (c : Cycle R K) (size : Nat) : Vec K :=
  (List.zipWith Vec.scale c.coordinates c.basis).foldl (· + ·) (Vec.zeros size)

/-- How the iteration ended: the tolerance was met, or not within the number of cycles. -/
inductive Outcome where
  | converged
  | stopped (cycles : Nat)

/-- The tolerances of the outer and the inner iteration. -/
structure Tolerances (R : Type) where
  outer : R
  inner : R
  factor : R

/-- The cycles after the first residual is known. -/
def cycles (apply : Vec K → Action (Thrown R K) S (Vec K)) (b : Vec K) (restart limit : Nat) :
    Nat → Tolerances R → Vec K → Vec K → Action (Thrown R K) S (Vec K × Outcome)
  | 0, _, x, _ => return (x, .stopped limit)
  | fuel + 1, t, x, r => do
    let size : R := r.norm
    let start : Cycle R K :=
      { basis := [(1.0 / size) • r], columns := [], rotations := [], solved := []
        pending := Entry.ofReal size, residual := 0.0, closed := false }
    let c ← Cycle.run apply t.inner restart start
    let x := x + c.correction b.size
    let product ← apply x
    let r := b - product
    let size : R := r.norm
    if size ≤ t.outer then return (x, .converged)
    if c.closed then return (x, .stopped limit)
    let factor :=
      if c.residual ≤ t.inner then Scalar.greatest Scalar.epsilon (0.25 * t.factor)
      else Scalar.least 1.0 (1.5 * t.factor)
    let inner := c.residual * Scalar.least factor (t.outer / size)
    cycles apply b restart limit fuel { t with inner, factor } x r

/-- The iteration from `x` with the residual `r`. -/
def iterate (apply : Vec K → Action (Thrown R K) S (Vec K)) (b : Vec K) (restart limit : Nat)
    (t : Tolerances R) (x r : Vec K) : Action (Thrown R K) S (Vec K × Outcome) := do
  if r.norm < t.outer then return (x, .converged)
  if restart = 0 then throw (.fault .noIteration)
  cycles apply b restart limit limit t x r

/-- Solves a system from a starting vector, or from zero. -/
def solve (apply : Vec K → Action (Thrown R K) S (Vec K)) (settings : KrylovSettings R)
    (b : Vec K) (start : Option (Vec K)) : Action (Thrown R K) S (Vec K × Outcome) := do
  let size : R := b.norm
  if Scalar.same size 0.0 then return (b, .converged)
  let outer := Scalar.greatest 0.0 (settings.tolerance * size)
  let limit := settings.maxiter.getD (10 * b.size)
  let restart := min (settings.restart.getD 20) b.size
  let t : Tolerances R := { outer, inner := size * Scalar.least 1.0 (outer / size), factor := 1.0 }
  let x := start.getD b.zerosLike
  if limit = 0 then throw (.fault .noIteration)
  if x.isZero then iterate apply b restart limit t x b
  else
    let product ← apply x
    iterate apply b restart limit t x (b - product)

end RootFinding.Gmres
