import RootFinding.Difference.Scheme
import RootFinding.Matrix.Grid
import RootFinding.Failure

/-!
# Derivatives by differences

The derivative of a vector function at a real point, column by column, by groups of columns that
share no row of a pattern, or along a single vector. The function is an action, so each of its
evaluations may fail, and the evaluations happen in the order of the columns.
-/

namespace RootFinding.Difference

variable {R K S : Type} [Scalar R] [Entry R K]

/-- A vector function as an action. -/
abbrev Field (R K S : Type) : Type := Vec K → Action (Thrown R K) S (Vec K)

/-- The real point `x + h` as a vector of entries. -/
def moved (x h : Vec R) : Vec K := .ofReals (Vec.zipWith (· + ·) x h)

/-- The real point `x - h` as a vector of entries. -/
def movedBack (x h : Vec R) : Vec K := .ofReals (Vec.zipWith (· - ·) x h)

/-- The point `x + i h`. -/
def movedAside (x h : Vec R) : Vec K :=
  Vec.zipWith (fun a b => Entry.ofReal a + Entry.imaginary b) x h

/-- The change of the function along the steps `h`, the numerator of the difference quotient. -/
def change (F : Field R K S) (s : Scheme) (x h : Vec R) (f0 : Vec K) :
    Action (Thrown R K) S (Vec K) :=
  match s with
  | .forward => do
    let f ← F (moved x h)
    Action.ofFault (Vec.align (· - ·) f f0)
  | .central => do
    let back ← F (movedBack x h)
    let front ← F (moved x h)
    Action.ofFault (Vec.align (· - ·) front back)
  | .complexStep => do
    let f ← F (movedAside x h)
    return .ofReals f.im

/-- The length of the step of one coordinate as it comes out of the arithmetic. -/
def length (s : Scheme) (x h : R) : R :=
  match s with
  | .forward => (x + h) - x
  | .central => (x + h) - (x - h)
  | .complexStep => h

/-- The steps of the coordinates in `cols`, none for the others. -/
def steps (s : Scheme) (x : Vec R) (cols : List Nat) : Vec R :=
  .ofList (x.toList.mapIdx fun i a => if cols.contains i then s.step a else 0.0)

/-- The length of the step of each coordinate. -/
def lengths (s : Scheme) (x : Vec R) : Vec R := x.map fun a => length s a (s.step a)

/-- A column of `m` entries. A single entry fills it. -/
def fit (m : Nat) (v : Vec K) : Except Fault (Vec K) :=
  if v.size = m then .ok v
  else match v.toList with
    | [a] => .ok (Vec.replicate m a)
    | _ => .error (.misaligned v.size m)

/-- The columns of the derivative for the numbered step lengths. A dense derivative is real. -/
def columns (F : Field R K S) (s : Scheme) (x : Vec R) (f0 : Vec K) :
    List (R × Nat) → Action (Thrown R K) S (List (Vec K))
  | [] => return []
  | (len, j) :: rest => do
    let top ← change F s x (steps s x [j]) f0
    let column ← Action.ofFault (fit f0.size (top.divideBy len).realPart)
    return column :: (← columns F s x f0 rest)

/-- The derivative as a dense matrix with a row for each entry of `f0`. -/
def dense (F : Field R K S) (s : Scheme) (x : Vec R) (f0 : Vec K) :
    Action (Thrown R K) S (Grid K) := do
  let cols ← columns F s x f0 (lengths s x).toList.zipIdx
  return .ofFn f0.size x.size fun i j => ((cols.map Vec.toList).getD j []).getD i Entry.zero

/-! ## Groups of columns -/

/-- Takes the columns that share no row with those taken before; answers them and the others. -/
def takeApart : List (Nat × List Nat) → List Nat → List Nat × List (Nat × List Nat)
  | [], _ => ([], [])
  | (j, rows) :: rest, used =>
    if rows.any used.contains then
      let (taken, left) := takeApart rest used
      (taken, (j, rows) :: left)
    else
      let (taken, left) := takeApart rest (rows ++ used)
      (j :: taken, left)

theorem takeApart_length_le (cols : List (Nat × List Nat)) (used : List Nat) :
    (takeApart cols used).2.length ≤ cols.length := by
  induction cols generalizing used with
  | nil => simp [takeApart]
  | cons c rest ih =>
    obtain ⟨j, rows⟩ := c
    simp only [takeApart]
    split
    · simpa using ih used
    · have := ih (rows ++ used)
      simp only [List.length_cons]
      omega

/-- The columns in groups that share no row: each group starts with the first column that is left
and takes every later one that it can. -/
def groups : List (Nat × List Nat) → List (List Nat)
  | [] => []
  | (j, rows) :: rest =>
    (j :: (takeApart rest rows).1) :: groups (takeApart rest rows).2
termination_by cols => cols.length
decreasing_by
  have := takeApart_length_le rest rows
  simp only [List.length_cons]
  omega

/-- The columns of a pattern, each with the rows it touches. -/
def touched (pattern : Grid Bool) : List (Nat × List Nat) :=
  (pattern.columns false).mapIdx fun j column =>
    (j, column.zipIdx.filterMap fun (b, i) => if b then some i else none)

/-- The changes of the function for each group of columns, taken in one evaluation each. -/
def groupChanges (F : Field R K S) (s : Scheme) (x : Vec R) (f0 : Vec K) :
    List (List Nat) → Action (Thrown R K) S (List (List Nat × Vec K))
  | [] => return []
  | cols :: rest => do
    let top ← change F s x (steps s x cols) f0
    let top := if s = .central then top.realPart else top
    return (cols, top) :: (← groupChanges F s x f0 rest)

/-- The groups of coordinates that are stepped together for a pattern in `n` unknowns. A pattern of
one column steps all of them, and the change counts for the first. -/
def stepped (pattern : Grid Bool) (n : Nat) : List (List Nat) :=
  if pattern.cols = 1 then [List.range n] else groups (touched pattern)

/-- The derivative at the places of a pattern; there is no entry elsewhere. -/
def sparse (F : Field R K S) (s : Scheme) (x : Vec R) (f0 : Vec K) (pattern : Grid Bool) :
    Action (Thrown R K) S (Grid (Option K)) := do
  if pattern.cols ≠ x.size ∧ pattern.cols ≠ 1 then
    throw (.fault (.misaligned x.size pattern.cols))
  let beyond := (touched pattern).flatMap fun (_, rows) => rows.filter (f0.size ≤ ·)
  let changes ← groupChanges F s x f0 (stepped pattern x.size)
  if let i :: _ := beyond then throw (.fault (.outOfRange i f0.size))
  let lens := (lengths s x).toList
  return .ofFn f0.size x.size fun i j =>
    if pattern.get false i j then
      let top := (changes.find? fun (cols, _) => cols.contains j).map fun (_, v) =>
        v.toList.getD i Entry.zero
      top.map (· / Entry.ofReal (lens.getD j 1.0))
    else none

/-! ## Along a vector -/

/-- The derivative along `p` by one difference; a zero vector needs no evaluation. -/
def along (F : Field R K S) (s : Scheme) (x : Vec R) (f0 : Vec K) (p : Vec K) :
    Action (Thrown R K) S (Vec K) := do
  if p.isZero then return Vec.zeros f0.size
  let point : Vec K := .ofReals x
  let h := s.relativeStep / p.norm
  match s with
  | .forward =>
    let f ← F (point + h • p)
    let top ← Action.ofFault (Vec.align (· - ·) f f0)
    return top.divideBy h
  | .central =>
    let d := 2.0 * s.relativeStep / p.norm
    let back ← F (point - (d / 2.0) • p)
    let front ← F (point + (d / 2.0) • p)
    let top ← Action.ofFault (Vec.align (· - ·) front back)
    return top.divideBy d
  | .complexStep =>
    let f ← F (point + Vec.scale (Entry.imaginary h) p)
    return (Vec.ofReals f.im).divideBy h

end RootFinding.Difference
