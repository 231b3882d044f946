import RootFinding.Matrix.Dense

/-!
# Least squares

The least squares solution of minimal norm from the singular values of a matrix. The singular values
are the lengths of the columns after pairs of columns have been turned against each other until they
are orthogonal. Singular values that are negligible beside the largest one count as zero, however
small the largest one is.
-/

namespace RootFinding.LeastSquares

variable {R K : Type} [Scalar R] [Entry R K]

/-- A column of the matrix with the column of the turned unit matrix that goes with it. -/
structure Pair (K : Type) where
  image : Vec K
  source : Vec K

/-- Two columns turned so that they are orthogonal. -/
def turn (p q : Pair K) : Pair K × Pair K :=
  let a : R := p.image.normSq
  let b : R := q.image.normSq
  let g : K := Vec.inner p.image q.image
  let size : R := Entry.abs g
  if size ≤ Scalar.epsilon * Scalar.sqrt a * Scalar.sqrt b then (p, q)
  else
    let phase : K := Entry.conj g / Entry.ofReal size
    let z := (b - a) / (2.0 * size)
    let way := Scalar.abs z + Scalar.sqrt (1.0 + z * z)
    let t : R := if z < 0.0 then -(1.0 / way) else 1.0 / way
    let c := 1.0 / Scalar.sqrt (1.0 + t * t)
    let s := c * t
    let mix (x y : Vec K) : Vec K × Vec K :=
      let y := Vec.scale phase y
      (c • x - s • y, s • x + c • y)
    let (pi, qi) := mix p.image q.image
    let (ps, qs) := mix p.source q.source
    (⟨pi, ps⟩, ⟨qi, qs⟩)

/-- Turns a column against every column of a list. -/
def turnAll (p : Pair K) : List (Pair K) → Pair K × List (Pair K)
  | [] => (p, [])
  | q :: rest =>
    let (p, q) := turn p q
    let (p, rest) := turnAll p rest
    (p, q :: rest)

theorem turnAll_length (p : Pair K) (qs : List (Pair K)) :
    (turnAll p qs).2.length = qs.length := by
  induction qs generalizing p with
  | nil => rfl
  | cons q rest ih => simp [turnAll, ih]

/-- Turns every pair of columns once. -/
def sweep : List (Pair K) → List (Pair K)
  | [] => []
  | p :: rest => (turnAll p rest).1 :: sweep (turnAll p rest).2
termination_by ps => ps.length
decreasing_by simp [turnAll_length]

/-- The columns after the given number of sweeps. -/
def sweeps : Nat → List (Pair K) → List (Pair K)
  | 0, ps => ps
  | n + 1, ps => sweeps n (sweep ps)

/-- The number of sweeps, more than double precision ever needs. -/
def sweepCount : Nat := 40

/-- The columns of a matrix beside those of the unit matrix. -/
def pairs (A : Dense K) : List (Pair K) :=
  let columns := Grid.columns A Entry.zero
  columns.mapIdx fun j column =>
    ⟨.ofList column, (Vec.zeros columns.length).update j fun _ => Entry.one⟩

/-- The pairs whose singular value counts, each with that value. -/
def singular (A : Dense K) : List (R × Pair K) :=
  let values := (sweeps sweepCount (pairs A)).map fun p => (p.image.norm, p)
  let largest := values.foldl (fun m (x, _) => Scalar.greatest m x) 0.0
  values.filter fun (x, _) => Scalar.epsilon * largest < x

/-- The conjugate transpose of a matrix. -/
def adjoint (A : Dense K) : Dense K := (Dense.transpose A).map Entry.conj

/-- The least squares solution of minimal norm for a matrix whose squares stay in range. The side
with fewer vectors is turned. -/
def solveModerate (A : Dense K) (b : Vec K) : Vec K :=
  let start : Vec K := Vec.replicate A.cols (Entry.zeroAs (Dense.isReal A && b.isReal))
  if A.cols ≤ A.height then
    (singular A).foldl
      (fun x (value, p) =>
        x + Vec.scale (Vec.inner p.image b / Entry.ofReal (value * value)) p.source)
      start
  else
    (singular (adjoint A)).foldl
      (fun x (value, p) =>
        x + Vec.scale (Vec.inner p.source b / Entry.ofReal (value * value)) p.image)
      start

/-- The largest modulus of an entry. -/
def largestEntry (A : Dense K) : R := Vec.normMax (Vec.ofList A.rows.flatten)

/-- The least squares solution of minimal norm. A matrix of very small or very large entries is
scaled, so that the lengths of its columns neither vanish nor overflow. -/
def solve (A : Dense K) (b : Vec K) : Vec K :=
  let size : R := largestEntry A
  if Scalar.same size 0.0 || (1e-100 ≤ size && size ≤ 1e100) then solveModerate A b
  else (solveModerate (A.map (· / Entry.ofReal size)) b).divideBy size

end RootFinding.LeastSquares
