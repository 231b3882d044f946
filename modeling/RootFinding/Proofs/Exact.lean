import Mathlib.Analysis.SpecialFunctions.Log.Base
import Mathlib.Analysis.SpecialFunctions.Trigonometric.Arctan
import RootFinding.Vec

/-!
# Exact arithmetic

The real numbers with two infinities and an undefined number as a scalar system, and as entries of
their own. Operations on real numbers are those of the real numbers; the other cases are those of
binary floating point arithmetic, with one zero. A residual may be infinite or undefined, so the
solvers are stated exactly on everything that they may meet.

* `Exact.real_add` and its neighbours compute with real numbers, `Exact.real_lt` and its
  neighbours compare with them.
* `Exact.norm_real`, `Exact.norm_not_real`: the norm of a vector is a real number that is not
  negative if all its entries are finite, and infinite or undefined otherwise.
-/

namespace RootFinding

/-- A real number, an infinity or the undefined number. -/
inductive Exact where
  | real (x : ℝ)
  | posInf
  | negInf
  | undefined

namespace Exact

noncomputable section

def add : Exact → Exact → Exact
  | real x, real y => real (x + y)
  | undefined, _ | _, undefined | posInf, negInf | negInf, posInf => undefined
  | posInf, _ | _, posInf => posInf
  | negInf, _ | _, negInf => negInf

def neg : Exact → Exact
  | real x => real (-x)
  | posInf => negInf
  | negInf => posInf
  | undefined => undefined

/-- The infinity with the sign of a number; undefined for zero. -/
def infinityOf (s : ℝ) : Exact := if 0 < s then posInf else if s < 0 then negInf else undefined

def mul : Exact → Exact → Exact
  | real x, real y => real (x * y)
  | undefined, _ | _, undefined => undefined
  | posInf, real y | real y, posInf => infinityOf y
  | negInf, real y | real y, negInf => infinityOf (-y)
  | posInf, posInf | negInf, negInf => posInf
  | posInf, negInf | negInf, posInf => negInf

def div : Exact → Exact → Exact
  | real x, real y => if y = 0 then infinityOf x else real (x / y)
  | undefined, _ | _, undefined => undefined
  | real _, posInf | real _, negInf => real 0
  | posInf, real y => if y < 0 then negInf else posInf
  | negInf, real y => if y < 0 then posInf else negInf
  | posInf, _ | negInf, _ => undefined

/-- Nothing is less than the undefined number or greater than it. -/
def Less : Exact → Exact → Prop
  | real x, real y => x < y
  | real _, posInf | negInf, real _ | negInf, posInf => True
  | _, _ => False

def LessEq : Exact → Exact → Prop
  | real x, real y => x ≤ y
  | real _, posInf | negInf, real _ | negInf, posInf | posInf, posInf | negInf, negInf => True
  | _, _ => False

def isReal : Exact → Bool
  | real _ => true
  | _ => false

def abs : Exact → Exact
  | real x => real |x|
  | posInf | negInf => posInf
  | undefined => undefined

def sqrt : Exact → Exact
  | real x => if x < 0 then undefined else real √x
  | posInf => posInf
  | negInf | undefined => undefined

def exp : Exact → Exact
  | real x => real (Real.exp x)
  | posInf => posInf
  | negInf => real 0
  | undefined => undefined

def arctan : Exact → Exact
  | real x => real (Real.arctan x)
  | posInf => real (Real.pi / 2)
  | negInf => real (-(Real.pi / 2))
  | undefined => undefined

/-- The power of real numbers: infinite for a negative power of zero. -/
def realPow (x y : ℝ) : Exact :=
  if 0 < x ∨ x = 0 ∧ 0 ≤ y then real (x ^ y)
  else if x = 0 then posInf
  else if (⌊y⌋ : ℝ) = y then real (x ^ ⌊y⌋)
  else undefined

/-- The power with an infinite exponent of the given sign, by the size of the base. -/
def infinitePow (size : ℝ) (positive : Bool) : Exact :=
  if size = 1 then real 1
  else if (1 < size) = positive then posInf else real 0

open Classical in
def pow : Exact → Exact → Exact
  | real x, real y => realPow x y
  | a, b =>
    if a = real 1 ∨ b = real 0 then real 1
    else match a, b with
      | real x, posInf => infinitePow |x| true
      | real x, negInf => infinitePow |x| false
      | posInf, real y => if 0 < y then posInf else real 0
      | negInf, real y =>
        if y < 0 then real 0 else if (⌊y⌋ : ℝ) = y ∧ Odd ⌊y⌋ then negInf else posInf
      | posInf, posInf | negInf, posInf => posInf
      | posInf, negInf | negInf, negInf => real 0
      | _, _ => undefined

/-- An exact number has no decimal text in general; it is shown to the nearest whole number. -/
def write (_ : NumberStyle) : Exact → String
  | real x => toString (round x)
  | posInf => "inf"
  | negInf => "-inf"
  | undefined => "nan"

instance : Scalar Exact where
  add := add
  sub a b := add a (neg b)
  mul := mul
  div := div
  neg := neg
  lt := Less
  le := LessEq
  ofScientific m negative e := real (OfScientific.ofScientific m negative e)
  write := write
  decideLt _ _ := Classical.propDecidable _
  decideLe _ _ := Classical.propDecidable _
  ofNat n := real n
  infinity := posInf
  pi := real Real.pi
  isFinite := isReal
  abs := abs
  sqrt := sqrt
  exp := exp
  arctan := arctan
  pow := pow
  halvings
    | real x => ⌈Real.logb 2 (1 / x)⌉₊
    | _ => 0

/-- Exact numbers as entries. There is no imaginary unit among them. -/
instance : Entry Exact Exact where
  ofReal a := a
  imaginary _ := undefined
  re a := a
  im _ := real 0
  isReal _ := true
  conj a := a
  abs := Scalar.abs
  sqrt := Scalar.sqrt
  maximum := Scalar.upper
  write := write

end

/-! ## Real numbers -/

section Real

variable {x y : ℝ} {a b : Exact}

@[simp] theorem real_add : real x + real y = real (x + y) := rfl

@[simp] theorem real_sub : real x - real y = real (x - y) :=
  congrArg real (sub_eq_add_neg x y).symm

@[simp] theorem real_mul : real x * real y = real (x * y) := rfl

@[simp] theorem real_neg : -real x = real (-x) := rfl

theorem real_div (hy : y ≠ 0) : real x / real y = real (x / y) := if_neg hy

@[simp] theorem real_lt : real x < real y ↔ x < y := Iff.rfl

@[simp] theorem real_le : real x ≤ real y ↔ x ≤ y := Iff.rfl

@[simp] theorem ofScientific_eq (m : Nat) (negative : Bool) (e : Nat) :
    (OfScientific.ofScientific m negative e : Exact) =
      real (OfScientific.ofScientific m negative e : ℝ) := rfl

theorem zero_eq : (Entry.zero : Exact) = real 0 := by norm_num [Entry.zero, Entry.ofReal]

theorem epsilon_eq : (Scalar.epsilon : Exact) = real (1 / 4503599627370496) := by
  rw [Scalar.epsilon, ofScientific_eq, ofScientific_eq, real_div (by norm_num)]
  norm_num

@[simp] theorem infinity_eq : (Scalar.infinity : Exact) = posInf := rfl

@[simp] theorem neg_posInf : -posInf = negInf := rfl

@[simp] theorem real_lt_posInf : real x < posInf := trivial

@[simp] theorem negInf_lt_real : negInf < real x := trivial

@[simp] theorem not_lt_negInf : ¬a < negInf := by cases a <;> exact id

@[simp] theorem not_posInf_lt : ¬posInf < a := by cases a <;> exact id

@[simp] theorem not_lt_undefined : ¬a < undefined := by cases a <;> exact id

@[simp] theorem not_undefined_lt : ¬undefined < a := by cases a <;> exact id

@[simp] theorem real_sub_posInf : real x - posInf = negInf := rfl

@[simp] theorem sub_undefined : a - undefined = undefined := by cases a <;> rfl

@[simp] theorem mul_undefined : a * undefined = undefined := by cases a <;> rfl

theorem real_mul_posInf (hx : 0 < x) : real x * posInf = posInf := if_pos hx

theorem negInf_div_real (hx : 0 < x) : negInf / real x = negInf := if_neg (not_lt.2 hx.le)

@[simp] theorem undefined_div : undefined / a = undefined := by cases a <;> rfl

@[simp] theorem square_real : Scalar.square (real x) = real (x * x) := rfl

@[simp] theorem square_posInf : Scalar.square posInf = posInf := rfl

@[simp] theorem square_undefined : Scalar.square undefined = undefined := rfl

@[simp] theorem isFinite_eq : Scalar.isFinite a = isReal a := rfl

@[simp] theorem isReal_real : isReal (real x) = true := rfl

theorem isReal_iff : isReal a = true ↔ ∃ x, a = real x := by
  cases a <;> simp [isReal]

theorem sqrt_real (hx : 0 ≤ x) : Scalar.sqrt (real x) = real √x := if_neg (not_lt.2 hx)

@[simp] theorem exp_real : Scalar.exp (real x) = real (Real.exp x) := rfl

@[simp] theorem exp_negInf : Scalar.exp negInf = real 0 := rfl

theorem le_of_lt (h : a < b) : a ≤ b := by
  cases a <;> cases b <;> first | exact LT.lt.le (α := ℝ) h | trivial

/-- A real number is at most a number that is not below it and not undefined. -/
theorem le_of_not_lt (hb : real x ≤ b) (h : ¬b < real y) : real y ≤ b := by
  cases b with
  | real z => exact real_le.2 (not_lt.1 (mt real_lt.2 h))
  | posInf => trivial
  | negInf | undefined => exact hb.elim

theorem le_trans {d : Exact} (h : a ≤ b) (h' : b ≤ d) : a ≤ d := by
  cases a <;> cases b <;> cases d <;> first | exact LE.le.trans (α := ℝ) h h' | trivial

/-- A number between a real number and another number is real. -/
theorem exists_real_of_le_of_lt (h : real x ≤ a) (h' : a < b) : ∃ y, x ≤ y ∧ a = real y := by
  cases a with
  | real y => exact ⟨y, h, rfl⟩
  | posInf => exact (not_posInf_lt h').elim
  | negInf => exact h.elim
  | undefined => exact (not_undefined_lt h').elim

theorem exists_real_of_le_of_le (h : real x ≤ a) (h' : a ≤ real y) :
    ∃ z, x ≤ z ∧ z ≤ y ∧ a = real z := by
  cases a with
  | real z => exact ⟨z, h, h', rfl⟩
  | posInf => exact h'.elim
  | negInf | undefined => exact h.elim

/-- A difference is a real number only if both of its terms are. -/
theorem isReal_sub (h : (a - b).isReal = true) : a.isReal = true ∧ b.isReal = true := by
  cases a <;> cases b <;> first | exact ⟨rfl, rfl⟩ | cases h

theorem same_iff : Scalar.same a (real x) = true ↔ a = real x := by
  rw [Scalar.same, Bool.and_eq_true_iff, decide_eq_true_eq, decide_eq_true_eq]
  constructor
  · rintro ⟨hle, hge⟩
    obtain ⟨z, hz, hz', rfl⟩ := exists_real_of_le_of_le hge hle
    rw [le_antisymm hz' hz]
  · rintro rfl
    exact ⟨real_le.2 le_rfl, real_le.2 le_rfl⟩

theorem isZero_iff : Entry.isZero a = true ↔ a = real 0 := by
  change Entry.same a Entry.zero = true ↔ _
  rw [zero_eq]
  change (Scalar.same a (real 0) && Scalar.same (real 0) (real 0)) = true ↔ _
  rw [same_iff.2 rfl, Bool.and_true, same_iff]

theorem maximum_real (x y : ℝ) : Entry.maximum (real x) (real y) = real (max x y) := by
  have hdefined : ∀ z, Scalar.isNaN (real z) = false := fun z => by simp [Scalar.isNaN, Scalar.same]
  change Scalar.upper (real x) (real y) = _
  rw [Scalar.upper, hdefined, hdefined, if_neg Bool.false_ne_true, if_neg Bool.false_ne_true,
    Scalar.greatest]
  split
  next h => rw [max_eq_right (real_lt.1 h).le]
  next h => rw [max_eq_left (not_lt.1 (mt real_lt.2 h))]

theorem square_eq_zero : Scalar.square a = real 0 ↔ a = real 0 := by
  cases a with
  | real x => rw [square_real, Exact.real.injEq, Exact.real.injEq, mul_self_eq_zero]
  | posInf | negInf | undefined => constructor <;> (intro h; cases h)

theorem eq_of_same (h : Scalar.same a b = true) : a = b := by
  rw [Scalar.same, Bool.and_eq_true_iff, decide_eq_true_eq, decide_eq_true_eq] at h
  cases a <;> cases b <;>
    first | exact congrArg real (le_antisymm h.1 h.2) | rfl | exact h.1.elim | exact h.2.elim

/-- What is not negative and not at most a real number is above it. -/
theorem lt_of_not_le (ha : real 0 ≤ a) (h : ¬a ≤ real x) : real x < a := by
  cases a with
  | real y => exact real_lt.2 (not_le.1 (mt real_le.2 h))
  | posInf => trivial
  | negInf | undefined => exact ha.elim

theorem lt_of_real_lt (hxy : x < y) (h : real y < a) : real x < a := by
  cases a with
  | real z => exact real_lt.2 (hxy.trans h)
  | posInf => trivial
  | negInf | undefined => exact h.elim

theorem not_le_undefined : ¬a ≤ undefined := by cases a <;> exact id

theorem div_undefined : a / undefined = undefined := by cases a <;> rfl

theorem real_mul_posInf_of_neg (hx : x < 0) : real x * posInf = negInf :=
  (if_neg (not_lt.2 hx.le)).trans (if_pos hx)

theorem exists_real_of_lt_of_lt (h : real x < a) (h' : a < b) : ∃ y, x < y ∧ a = real y := by
  cases a with
  | real y => exact ⟨y, h, rfl⟩
  | posInf => exact (not_posInf_lt h').elim
  | negInf => exact (not_lt_negInf h).elim
  | undefined => exact (not_undefined_lt h').elim

/-- A number that is at most a real number and above another one is real. -/
theorem exists_real_of_lt_of_le (h : real x < a) (h' : a ≤ real y) :
    ∃ z, x < z ∧ z ≤ y ∧ a = real z := by
  cases a with
  | real z => exact ⟨z, h, h', rfl⟩
  | posInf => exact h'.elim
  | negInf => exact (not_lt_negInf h).elim
  | undefined => exact (not_lt_undefined h).elim

end Real

/-! ## Signs

What is not below zero: the numbers that are not negative, and the undefined number. -/

section Signs

variable {x : ℝ} {a b d m : Exact}

theorem not_neg_real : ¬real x < real 0 ↔ 0 ≤ x := not_lt (α := ℝ)

theorem not_neg_of_nonneg (h : real 0 ≤ a) : ¬a < real 0 := by
  cases a with
  | real x => exact not_neg_real.2 (real_le.1 h)
  | posInf => exact not_posInf_lt
  | negInf => exact h.elim
  | undefined => exact not_undefined_lt

theorem not_neg_square (a : Exact) : ¬Scalar.square a < real 0 := by
  cases a with
  | real x => exact not_neg_real.2 (mul_self_nonneg x)
  | posInf | negInf => exact not_posInf_lt
  | undefined => exact not_undefined_lt

theorem not_neg_infinityOf (h : 0 ≤ x) : ¬infinityOf x < real 0 := by
  unfold infinityOf
  split
  · exact not_posInf_lt
  · rw [if_neg (not_lt.2 h)]
    exact not_undefined_lt

theorem not_neg_mul (ha : ¬a < real 0) (hb : ¬b < real 0) : ¬a * b < real 0 := by
  cases a with
  | real x =>
    have hx : 0 ≤ x := not_neg_real.1 ha
    cases b with
    | real y => exact not_neg_real.2 (mul_nonneg hx (not_neg_real.1 hb))
    | posInf => exact not_neg_infinityOf hx
    | negInf => exact (hb trivial).elim
    | undefined => exact not_undefined_lt
  | posInf =>
    cases b with
    | real y => exact not_neg_infinityOf (not_neg_real.1 hb)
    | posInf => exact not_posInf_lt
    | negInf => exact (hb trivial).elim
    | undefined => exact not_undefined_lt
  | negInf => exact (ha trivial).elim
  | undefined => cases b <;> exact not_undefined_lt

/-- What is within a difference is within the number from which something is taken away. -/
theorem le_of_le_sub (hd : ¬d < real 0) (h : m ≤ b - d) : m ≤ b := by
  cases d with
  | real y =>
    cases b with
    | real x =>
      refine le_trans h ?_
      rw [real_sub, real_le]
      exact sub_le_self x (not_neg_real.1 hd)
    | posInf => exact h
    | negInf => exact h
    | undefined => exact h
  | posInf => cases b <;> cases m <;> first | exact h.elim | trivial
  | negInf => exact (hd trivial).elim
  | undefined => cases b <;> cases m <;> exact h.elim

theorem add_right_mono (ha : real 0 ≤ a) (h : a ≤ b) (hd : real 0 ≤ d) : a + d ≤ b + d := by
  cases a with
  | real x =>
    cases d with
    | real z =>
      cases b with
      | real y =>
        rw [real_add, real_add, real_le]
        exact add_le_add (real_le.1 h) le_rfl
      | posInf => trivial
      | negInf | undefined => exact h.elim
    | posInf => cases b <;> first | exact h.elim | trivial
    | negInf | undefined => exact hd.elim
  | posInf => cases b <;> cases d <;> first | exact h.elim | exact hd.elim | trivial
  | negInf | undefined => exact ha.elim

theorem le_add_of_nonneg (ha : real 0 ≤ a) (hd : real 0 ≤ d) : a ≤ a + d := by
  cases a with
  | real x =>
    cases d with
    | real z =>
      rw [real_add, real_le]
      exact le_add_of_le_of_nonneg le_rfl (real_le.1 hd)
    | posInf => trivial
    | negInf | undefined => exact hd.elim
  | posInf => cases d <;> first | exact hd.elim | trivial
  | negInf | undefined => exact ha.elim

theorem not_neg_infinitePow (size : ℝ) (positive : Bool) :
    ¬infinitePow size positive < real 0 := by
  unfold infinitePow
  split_ifs
  · exact not_neg_real.2 zero_le_one
  · exact not_posInf_lt
  · exact not_neg_real.2 le_rfl

theorem not_neg_realPow (y : ℝ) (hx : 0 ≤ x) : ¬realPow x y < real 0 := by
  unfold realPow
  split_ifs
  · exact not_neg_real.2 (Real.rpow_nonneg hx y)
  · exact not_posInf_lt
  · exact not_neg_real.2 (zpow_nonneg hx _)
  · exact not_undefined_lt

/-- A power of a number that is not negative is not negative. -/
theorem not_neg_pow (ha : ¬a < real 0) : ¬Scalar.pow a b < real 0 := by
  have hone : ¬real 1 < real 0 := not_neg_real.2 zero_le_one
  have hzero : ¬real 0 < real 0 := not_neg_real.2 le_rfl
  change ¬pow a b < real 0
  unfold pow
  split
  next x y => exact not_neg_realPow y (not_neg_real.1 ha)
  next =>
    split
    · exact hone
    · split
      · exact not_neg_infinitePow _ _
      · exact not_neg_infinitePow _ _
      · split
        · exact not_posInf_lt
        · exact hzero
      · exact (ha trivial).elim
      · exact not_posInf_lt
      · exact not_posInf_lt
      · exact hzero
      · exact hzero
      · exact not_undefined_lt

end Signs

/-! ## Sizes

A sum of squares is a real number that is not negative when all its terms are real, and infinite or
undefined otherwise. -/

/-- A size of something that is finite or not. -/
def IsSize (a : Exact) (finite : Bool) : Prop :=
  if finite then ∃ x, 0 ≤ x ∧ a = real x else a = posInf ∨ a = undefined

section Sizes

variable {x : ℝ} {a b : Exact} {p q : Bool}

theorem isSize_real (hx : 0 ≤ x) : IsSize (real x) true := ⟨x, hx, rfl⟩

theorem IsSize.isReal (h : IsSize a p) : a.isReal = p := by
  cases p with
  | true =>
    rcases h with ⟨x, -, rfl⟩
    rfl
  | false => rcases h with rfl | rfl <;> rfl

theorem IsSize.add (ha : IsSize a p) (hb : IsSize b q) : IsSize (a + b) (p && q) := by
  cases p <;> cases q
  · rcases ha with rfl | rfl <;> rcases hb with rfl | rfl <;>
      first | exact .inl rfl | exact .inr rfl
  · rcases hb with ⟨y, -, rfl⟩
    rcases ha with rfl | rfl <;> first | exact .inl rfl | exact .inr rfl
  · rcases ha with ⟨x, -, rfl⟩
    rcases hb with rfl | rfl <;> first | exact .inl rfl | exact .inr rfl
  · rcases ha with ⟨x, hx, rfl⟩
    rcases hb with ⟨y, hy, rfl⟩
    exact ⟨x + y, add_nonneg hx hy, rfl⟩

theorem isSize_square (a : Exact) : IsSize (Scalar.square a) a.isReal := by
  cases a with
  | real x => exact ⟨x * x, mul_self_nonneg x, rfl⟩
  | posInf => exact .inl rfl
  | negInf => exact .inl rfl
  | undefined => exact .inr rfl

theorem IsSize.sqrt (ha : IsSize a p) : IsSize (Scalar.sqrt a) p := by
  cases p with
  | true =>
    rcases ha with ⟨x, hx, rfl⟩
    exact ⟨√x, Real.sqrt_nonneg x, sqrt_real hx⟩
  | false => rcases ha with rfl | rfl <;> first | exact .inl rfl | exact .inr rfl

variable {K : Type} [Entry Exact K]

theorem isSize_normSq (x : K) : IsSize (Entry.normSq x) (Entry.isFinite x) :=
  (isSize_square (Entry.re x)).add (isSize_square (Entry.im x))

theorem isSize_total (v : Vec K) (ha : IsSize a p) :
    IsSize (List.foldl (· + ·) a (v.map Entry.normSq)) (p && v.all Entry.isFinite) := by
  induction v generalizing a p with
  | nil => simpa [Vec.map, Vec.all] using ha
  | cons x v ih =>
    have h := ih (ha.add (isSize_normSq x))
    simpa [Vec.map, Vec.all, Bool.and_assoc] using h

/-- The norm of a vector is the size of its entries together. -/
theorem isSize_norm (v : Vec K) : IsSize v.norm v.isFinite := by
  have h := isSize_total v (isSize_real (le_refl 0))
  have hzero : (0.0 : Exact) = real 0 := by norm_num
  rw [Bool.true_and] at h
  unfold Vec.norm Vec.normSq Vec.total
  rw [hzero]
  exact h.sqrt

/-- The norm of a finite vector is a real number. -/
theorem norm_real {v : Vec K} (hv : v.isFinite) : ∃ x, 0 ≤ x ∧ v.norm = real x := by
  have h := isSize_norm v
  rw [hv] at h
  exact h

/-- The norm of any other vector is infinite or undefined. -/
theorem norm_not_real {v : Vec K} (hv : v.isFinite = false) :
    v.norm = posInf ∨ v.norm = undefined := by
  have h := isSize_norm v
  rw [hv] at h
  exact h

theorem norm_not_neg (v : Vec K) : ¬v.norm < real 0 := by
  cases hv : v.isFinite with
  | true =>
    obtain ⟨x, hx, hnorm⟩ := norm_real hv
    rw [hnorm]
    exact not_neg_real.2 hx
  | false =>
    rcases norm_not_real hv with hnorm | hnorm
    · rw [hnorm]
      exact not_posInf_lt
    · rw [hnorm]
      exact not_undefined_lt

theorem norm_le_self {v : Vec K} (hv : v.isFinite) : v.norm ≤ v.norm := by
  obtain ⟨x, -, hx⟩ := norm_real hv
  rw [hx]
  exact le_refl x

end Sizes

end Exact

/-! ## Largest entries -/

section Largest

variable {R : Type} [Scalar R]

theorem Scalar.upper_cases (x y : R) : Scalar.upper x y = x ∨ Scalar.upper x y = y := by
  unfold Scalar.upper Scalar.greatest
  split_ifs <;> simp

theorem Scalar.foldl_upper_mem (x : R) (xs : List R) : xs.foldl Scalar.upper x ∈ x :: xs := by
  induction xs generalizing x with
  | nil => exact List.mem_cons_self
  | cons y xs ih =>
    rw [List.foldl_cons]
    rcases List.mem_cons.1 (ih (Scalar.upper x y)) with h | h
    · rcases Scalar.upper_cases x y with hxy | hxy
      · rw [h, hxy]
        exact List.mem_cons_self
      · rw [h, hxy]
        exact List.mem_cons_of_mem _ List.mem_cons_self
    · exact List.mem_cons_of_mem _ (List.mem_cons_of_mem _ h)

/-- The largest entry is one of the entries. -/
theorem Vec.maximum?_mem {xs : List R} {m : R} (h : Vec.maximum? (.ofList xs) = some m) :
    m ∈ xs := by
  cases xs with
  | nil => cases h
  | cons x xs =>
    cases h
    exact Scalar.foldl_upper_mem x xs

end Largest

namespace Exact

variable {x y b : Exact}

theorem isNaN_iff : Scalar.isNaN x = true ↔ x = undefined := by
  rw [Scalar.isNaN, Scalar.same, Bool.and_self, Bool.not_eq_true', decide_eq_false_iff_not]
  cases x with
  | real z => exact ⟨fun h => absurd (le_refl z) h, fun h => by cases h⟩
  | posInf | negInf => exact ⟨fun h => absurd trivial h, fun h => by cases h⟩
  | undefined => exact ⟨fun _ => rfl, fun _ h => h⟩

theorem le_self (hx : x ≠ undefined) : x ≤ x := by
  cases x with
  | real a => exact le_refl a
  | posInf | negInf => trivial
  | undefined => exact absurd rfl hx

/-- Numbers that are defined are ordered. -/
theorem le_of_not_less (hx : x ≠ undefined) (hy : y ≠ undefined) (h : ¬x < y) : y ≤ x := by
  cases x with
  | real a =>
    cases y with
    | real b => exact real_le.2 (not_lt.1 h)
    | posInf => exact absurd trivial h
    | negInf => trivial
    | undefined => exact absurd rfl hy
  | posInf =>
    cases y with
    | real b | posInf | negInf => trivial
    | undefined => exact absurd rfl hy
  | negInf =>
    cases y with
    | real b | posInf => exact absurd trivial h
    | negInf => trivial
    | undefined => exact absurd rfl hy
  | undefined => exact absurd rfl hx

/-- The larger of two numbers is at least both of them. -/
theorem le_of_upper_le (h : Scalar.upper x y ≤ b) : x ≤ b ∧ y ≤ b := by
  unfold Scalar.upper at h
  split at h
  next hx =>
    rw [isNaN_iff.1 hx] at h
    exact h.elim
  next hx =>
    split at h
    next hy =>
      rw [isNaN_iff.1 hy] at h
      exact h.elim
    next hy =>
      unfold Scalar.greatest at h
      split at h
      next hlt => exact ⟨le_trans (le_of_lt hlt) h, h⟩
      next hnot =>
        exact ⟨h, le_trans (le_of_not_less (mt isNaN_iff.2 hx) (mt isNaN_iff.2 hy) hnot) h⟩

/-- The largest number of a list is at least every number of it. -/
theorem le_of_maximum?_le {xs : List Exact} {m : Exact}
    (h : Vec.maximum? (.ofList xs) = some m) (hm : m ≤ b) : ∀ x ∈ xs, x ≤ b := by
  have hfold : ∀ (xs : List Exact) (x : Exact), xs.foldl Scalar.upper x ≤ b →
      ∀ y ∈ x :: xs, y ≤ b := by
    intro xs
    induction xs with
    | nil => simp
    | cons z xs ih =>
      intro x h y hy
      have hall := ih (Scalar.upper x z) h
      obtain ⟨hx, hz⟩ := le_of_upper_le (hall _ List.mem_cons_self)
      rcases List.mem_cons.1 hy with rfl | hy
      · exact hx
      rcases List.mem_cons.1 hy with rfl | hy
      · exact hz
      · exact hall y (List.mem_cons_of_mem _ hy)
  cases xs with
  | nil => simp
  | cons x xs =>
    cases h
    exact hfold xs x hm

end Exact

end RootFinding
