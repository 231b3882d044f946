import RootFinding.Entry
import RootFinding.Fault

/-!
# Vectors

A vector is a list of entries. Sums and differences pair entries as far as both vectors reach, which
is right when they have the same length; `align` checks the lengths, and repeats the entry of a
vector of length one.
-/

namespace RootFinding

/-- A vector of entries. -/
def Vec (K : Type) : Type := List K

namespace Vec

variable {R K : Type}

def ofList (xs : List K) : Vec K := xs

def toList (v : Vec K) : List K := v

def size (v : Vec K) : Nat := v.toList.length

def map {L : Type} (f : K → L) (v : Vec K) : Vec L := List.map f v

def zipWith {L M : Type} (f : K → L → M) (u : Vec K) (v : Vec L) : Vec M := List.zipWith f u v

def all (p : K → Bool) (v : Vec K) : Bool := List.all v p

def any (p : K → Bool) (v : Vec K) : Bool := List.any v p

def replicate (n : Nat) (x : K) : Vec K := List.replicate n x

/-- The vector with entry `i` changed. -/
def update (v : Vec K) (i : Nat) (f : K → K) : Vec K := List.modify v i f

instance [Add K] : Add (Vec K) := ⟨zipWith (· + ·)⟩

instance [Sub K] : Sub (Vec K) := ⟨zipWith (· - ·)⟩

instance [Neg K] : Neg (Vec K) := ⟨map (- ·)⟩

/-- Entry by entry with a check of the lengths; a single entry pairs with every entry. -/
def align {L M : Type} (f : K → L → M) (u : Vec K) (v : Vec L) : Except Fault (Vec M) :=
  if u.size = v.size then .ok (zipWith f u v)
  else match u.toList, v.toList with
    | [x], ys => .ok (List.map (f x) ys)
    | xs, [y] => .ok (List.map (f · y) xs)
    | _, _ => .error (.misaligned u.size v.size)

/-! ## Scalars -/

section Scalars

variable [Scalar R]

def total (xs : Vec R) : R := List.foldl (· + ·) 0.0 xs

/-- The largest number of a vector, undefined when one of them is; `none` for an empty vector. -/
def maximum? : Vec R → Option R
  | [] => none
  | x :: xs => some (List.foldl Scalar.upper x xs)

/-- The smallest number of a vector, undefined when one of them is; `none` for an empty vector. -/
def minimum? : Vec R → Option R
  | [] => none
  | x :: xs => some (List.foldl Scalar.lower x xs)

end Scalars

/-! ## Entries -/

section Entries

variable [Scalar R] [Entry R K]

instance : HSMul R (Vec K) (Vec K) := ⟨fun a => map (Entry.ofReal a * ·)⟩

def zeros (n : Nat) : Vec K := replicate n Entry.zero

/-- A vector of zeros that has imaginary parts where the given one has. -/
def zerosLike (v : Vec K) : Vec K :=
  v.map fun x => Entry.zeroAs (Entry.isReal x)

/-- Every entry over a scalar. -/
def divideBy (v : Vec K) (a : R) : Vec K := v.map (· / Entry.ofReal a)

def scale (a : K) (v : Vec K) : Vec K := v.map (a * ·)

def sum (v : Vec K) : K := List.foldl (· + ·) Entry.zero v

/-- The sum of the products of entries, none of them conjugated. -/
def dot (u v : Vec K) : K := (zipWith (· * ·) u v).sum

/-- The sum of the products of entries, the first vector conjugated. -/
def inner (u v : Vec K) : K := (zipWith (fun x y => Entry.conj x * y) u v).sum

def normSq (v : Vec K) : R := (v.map Entry.normSq).total

/-- The euclidean norm, computed without scaling. -/
def norm (v : Vec K) : R := Scalar.sqrt v.normSq

/-- The largest modulus. -/
def normMax (v : Vec K) : R := (v.map Entry.abs).maximum?.getD 0.0

/-- The sum of the moduli. -/
def normSum (v : Vec K) : R := (v.map Entry.abs).total

/-- The root mean square of the moduli, zero for an empty vector. -/
def rms (v : Vec K) : R :=
  if v.size = 0 then 0.0
  else Scalar.sqrt ((v.map fun x => Scalar.square (Entry.abs x)).total / Scalar.ofNat v.size)

def isFinite (v : Vec K) : Bool := v.all Entry.isFinite

/-- Whether no entry carries an imaginary part. -/
def isReal (v : Vec K) : Bool := v.all Entry.isReal

/-- Whether two vectors have the same length and numerically equal entries. -/
def same (u v : Vec K) : Bool := u.size == v.size && (zipWith Entry.same u v).all id

def isZero (v : Vec K) : Bool := v.all Entry.isZero

def re (v : Vec K) : Vec R := v.map Entry.re

def im (v : Vec K) : Vec R := v.map Entry.im

def ofReals (v : Vec R) : Vec K := v.map Entry.ofReal

def realPart (v : Vec K) : Vec K := v.map Entry.realPart

def widen (v : Vec K) : Vec K := v.map Entry.widen

/-- The largest entry less the smallest one, by their real parts. -/
def spread (v : Vec K) : R :=
  v.re.maximum?.getD 0.0 - v.re.minimum?.getD 0.0

/-- `u` increased by `v`. A real vector takes no complex increment. -/
def increase (u v : Vec K) : Except Fault (Vec K) :=
  if u.isReal && !v.isReal then .error .complexValue else .ok (u + v)

end Entries

end Vec

/-- An array of entries: its shape, and its entries in row-major order. -/
structure Tensor (K : Type) where
  shape : Shape
  entries : Vec K

namespace Tensor

variable {K : Type}

def sizeOf (shape : Shape) : Nat := shape.foldl (· * ·) 1

/-- Whether the array is a single number, not a list of numbers. -/
def isScalar (t : Tensor K) : Bool := t.shape.isEmpty

/-- The entries of a vector in the given shape, if their number is right. -/
def reshape (v : Vec K) (shape : Shape) : Except Fault (Tensor K) :=
  if v.size = sizeOf shape then .ok ⟨shape, v⟩ else .error (.unreshapable v.size shape)

end Tensor

end RootFinding
