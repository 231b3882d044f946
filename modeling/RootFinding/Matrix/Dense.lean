import RootFinding.Vec
import RootFinding.Matrix.Grid

/-!
# Dense and sparse matrices

A dense matrix is a rectangular array of entries. A sparse matrix holds an entry or none at each
place; where there is none the entry is exactly zero and takes no part in a product, so it does not
meet the infinities of a vector. The zero is kept, since it tells whether the matrix has imaginary
parts even if no place holds an entry.
-/

namespace RootFinding

abbrev Dense (K : Type) := Grid K

/-- A sparse matrix. -/
structure Sparse (K : Type) where
  places : Grid (Option K)
  /-- The entry at the places that hold none. -/
  zero : K

variable {R K : Type} [Scalar R] [Entry R K]

namespace Dense

def transpose (A : Dense K) : Dense K := Grid.transpose A Entry.zero

/-- The product with a vector that has one entry for each column. -/
def apply (A : Dense K) (v : Vec K) : Vec K := .ofList (A.rows.map fun r => (Vec.ofList r).dot v)

/-- The product of the transposed matrix with a vector. -/
def applyTranspose (A : Dense K) (v : Vec K) : Vec K := (transpose A).apply v

/-- The transposed matrix times the matrix. -/
def gram (A : Dense K) : Dense K :=
  let columns := Grid.columns A Entry.zero
  .table columns columns fun a b => (Vec.ofList a).dot (Vec.ofList b)

def diagonal (A : Dense K) : Vec K := .ofList (Grid.diagonal A Entry.zero)

/-- The matrix with a vector added to its main diagonal. -/
def addDiagonal (A : Dense K) (d : Vec K) : Dense K :=
  A.mapDiagonal fun i x => x + d.toList.getD i Entry.zero

def isFinite (A : Dense K) : Bool := A.all Entry.isFinite

/-- Whether no entry carries an imaginary part. -/
def isReal (A : Dense K) : Bool := A.all Entry.isReal

end Dense

namespace Sparse

def height (A : Sparse K) : Nat := A.places.height

def cols (A : Sparse K) : Nat := A.places.cols

def isReal (A : Sparse K) : Bool := Entry.isReal A.zero

def toDense (A : Sparse K) : Dense K := A.places.map (·.getD A.zero)

/-- The matrix of the entries that are not zero. -/
def ofDense (A : Dense K) : Sparse K where
  places := A.map fun x => if Entry.isZero x then none else some x
  zero := Entry.zeroAs (Dense.isReal A)

/-- The matrix of some entries; all have imaginary parts as soon as one has. -/
def ofPlaces (places : Grid (Option K)) : Sparse K :=
  if places.all (·.all Entry.isReal) then ⟨places, Entry.zero⟩
  else ⟨places.map (·.map Entry.widen), Entry.zeroAs false⟩

def transpose (A : Sparse K) : Sparse K := { A with places := Grid.transpose A.places none }

/-- The products of the places where the first list holds an entry. -/
def products (r : List (Option K)) (v : List K) : List K :=
  (r.zip v).filterMap fun (a, x) => a.map (· * x)

def apply (A : Sparse K) (v : Vec K) : Vec K :=
  let start : K := A.zero + Entry.zeroAs v.isReal
  .ofList (A.places.rows.map fun r => (products r v.toList).foldl (· + ·) start)

def applyTranspose (A : Sparse K) (v : Vec K) : Vec K := (transpose A).apply v

/-- The products of the places where both lists hold an entry. -/
def common (r s : List (Option K)) : List K :=
  (r.zip s).filterMap fun (a, b) => a.bind fun x => b.map (x * ·)

/-- The transposed matrix times the matrix; an entry is present where two columns share a row. -/
def gram (A : Sparse K) : Sparse K :=
  let columns := Grid.columns A.places none
  { A with
    places := .table columns columns fun a b =>
      match common a b with
      | [] => none
      | xs => some (Vec.ofList xs).sum }

def diagonal (A : Sparse K) : Vec K :=
  .ofList ((Grid.diagonal A.places none).map (·.getD A.zero))

def addDiagonal (A : Sparse K) (d : Vec K) : Sparse K :=
  .ofPlaces (A.places.mapDiagonal fun i x => some (x.getD A.zero + d.toList.getD i Entry.zero))

def isFinite (A : Sparse K) : Bool := A.places.all fun x => x.all Entry.isFinite

end Sparse

end RootFinding
