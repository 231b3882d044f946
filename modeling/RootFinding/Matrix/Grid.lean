/-!
# Rectangular arrays

Rows of one length. The length of the rows is kept, so an array without rows still has columns.
-/

namespace RootFinding

/-- A rectangular array by its rows. -/
structure Grid (α : Type) where
  cols : Nat
  rows : List (List α)
  rect : ∀ r ∈ rows, r.length = cols

namespace Grid

variable {α β γ : Type}

def height (A : Grid α) : Nat := A.rows.length

def isSquare (A : Grid α) : Bool := A.height == A.cols

/-- The array of some rows, if they have one length. -/
def ofRows? (rows : List (List α)) : Option (Grid α) :=
  let cols := (rows.head?.map List.length).getD 0
  if h : ∀ r ∈ rows, r.length = cols then some ⟨cols, rows, h⟩ else none

/-- The array with the given entries. -/
def ofFn (height cols : Nat) (f : Nat → Nat → α) : Grid α where
  cols := cols
  rows := (List.range height).map fun i => (List.range cols).map (f i)
  rect := by simp

/-- The array with the given entry for each pair of elements of two lists. -/
def table (xs : List β) (ys : List γ) (f : β → γ → α) : Grid α where
  cols := ys.length
  rows := xs.map fun x => ys.map (f x)
  rect := by simp

/-- A single row. -/
def ofRow (row : List α) : Grid α where
  cols := row.length
  rows := [row]
  rect := by simp

def map (f : α → β) (A : Grid α) : Grid β where
  cols := A.cols
  rows := A.rows.map (List.map f)
  rect := by
    intro r h
    obtain ⟨s, hs, rfl⟩ := List.mem_map.1 h
    simpa using A.rect s hs

/-- The entry in a row and a column, or `d` outside the array. -/
def get (A : Grid α) (d : α) (i j : Nat) : α := (A.rows.getD i []).getD j d

/-- The columns of the array as lists. No entry is `d`, since the rows have one length. -/
def columns (A : Grid α) (d : α) : List (List α) :=
  (List.range A.cols).map fun j => A.rows.map (·.getD j d)

def transpose (A : Grid α) (d : α) : Grid α where
  cols := A.height
  rows := A.columns d
  rect := by
    intro r h
    obtain ⟨j, -, rfl⟩ := List.mem_map.1 h
    simp [height]

/-- The entries of the main diagonal. -/
def diagonal (A : Grid α) (d : α) : List α :=
  (List.range (min A.height A.cols)).map fun i => A.get d i i

/-- The array with entry `f i x` in place of the entry `x` of the main diagonal in row `i`. -/
def mapDiagonal (A : Grid α) (f : Nat → α → α) : Grid α where
  cols := A.cols
  rows := A.rows.mapIdx fun i r => r.modify i (f i)
  rect := by
    intro r h
    obtain ⟨i, hi, rfl⟩ := List.mem_mapIdx.1 h
    simpa using A.rect _ (List.getElem_mem hi)

def all (p : α → Bool) (A : Grid α) : Bool := A.rows.all (·.all p)

end Grid

end RootFinding
