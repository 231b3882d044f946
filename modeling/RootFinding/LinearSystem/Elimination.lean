import RootFinding.Matrix.Dense

/-!
# Elimination

Triangular factors of a matrix by elimination with row exchanges. Each level keeps the row that was
chosen, with the first entry of largest modulus in front, the multipliers of the other rows, and the
factors of what is left. A column of zeros is not eliminated and leaves a zero pivot.
-/

namespace RootFinding

/-- Triangular factors, one pivot at a time. -/
inductive TriangularFactors (K : Type) where
  | done
  | level (chosen : Nat) (pivot : K) (right multipliers : List K) (rest : TriangularFactors K)

namespace TriangularFactors

variable {R K : Type} [Scalar R] [Entry R K]

/-- The place of the first entry of largest modulus. -/
def pivotPlace (column : List K) : Nat :=
  (column.zipIdx.foldl
    (fun (best : Option (R × Nat)) (x, i) =>
      match best with
      | none => some (Entry.abs x, i)
      | some (a, k) => if a < Entry.abs x then some (Entry.abs x, i) else some (a, k))
    none).elim 0 (·.2)

/-- A list with its element `k` exchanged with the first one. -/
def exchange {α : Type} (xs : List α) (k : Nat) : List α :=
  match xs, xs[k]? with
  | [], _ => []
  | x :: rest, some y => if k = 0 then x :: rest else y :: rest.set (k - 1) x
  | xs, none => xs

/-- The factors of rows that have `cols` entries each. -/
def ofRows : Nat → List (List K) → TriangularFactors K
  | 0, _ => done
  | cols + 1, rows =>
    let k := pivotPlace (rows.map (·.headD Entry.zero))
    match exchange rows k with
    | [] => done
    | top :: others =>
      let pivot := top.headD Entry.zero
      let right := top.tail
      let multipliers := others.map fun r =>
        if Entry.isZero pivot then r.headD Entry.zero else r.headD Entry.zero / pivot
      let left := List.zipWith
        (fun m r => List.zipWith (fun x a => x - m * a) r.tail right) multipliers others
      level k pivot right multipliers (ofRows cols left)

/-- The factors of a matrix. -/
def ofDense (A : Dense K) : TriangularFactors K := ofRows A.cols A.rows

/-- The pivots in order: the main diagonal of the upper factor. -/
def pivots : TriangularFactors K → List K
  | done => []
  | level _ pivot _ _ rest => pivot :: rest.pivots

/-- The solution for a right-hand side. -/
def solve : TriangularFactors K → List K → List K
  | done, _ => []
  | level k pivot right multipliers rest, b =>
    match exchange b k with
    | [] => []
    | y :: others =>
      let xs := rest.solve (List.zipWith (fun m x => x - m * y) multipliers others)
      let sum := List.zipWith (· * ·) right xs
      (sum.foldl (· - ·) y / pivot) :: xs

end TriangularFactors

end RootFinding
