import Mathlib.Data.Prod.Lex
import RootFinding.Numeral
import RootFinding.Proofs.Exact

/-!
# Ordered scalars

The largest of some numbers is at least each of them where these numbers are ordered. No system of
scalars is ordered as a whole: an undefined number compares with nothing, and whole numerals compare
exactly with each other but rounded with double precision numbers.

* `Scalar.Ordered P`: the numbers with the property `P` are in order.
* `Scalar.Ordered.le_maximum?`: their largest is at least each of them.
* `Exact.ordered`, `Numeral.ordered`: the defined numbers of exact arithmetic are in order, and so
  are those of double precision, by their rank: their kind, their exponent and their mantissa, in
  this sequence.
-/

namespace RootFinding

/-- The numbers with the property `P` are in order. -/
structure Scalar.Ordered {R : Type} [Scalar R] (P : R → Prop) : Prop where
  refl {a : R} : P a → a ≤ a
  trans {a b c : R} : P a → P b → P c → a ≤ b → b ≤ c → a ≤ c
  le_of_lt {a b : R} : P a → P b → a < b → a ≤ b
  le_of_not_lt {a b : R} : P a → P b → ¬a < b → b ≤ a

namespace Scalar.Ordered

variable {R : Type} [Scalar R] {P : R → Prop}

theorem of_imp {Q : R → Prop} (h : Ordered P) (hQ : ∀ a, Q a → P a) : Ordered Q where
  refl ha := h.refl (hQ _ ha)
  trans ha hb hc := h.trans (hQ _ ha) (hQ _ hb) (hQ _ hc)
  le_of_lt ha hb := h.le_of_lt (hQ _ ha) (hQ _ hb)
  le_of_not_lt ha hb := h.le_of_not_lt (hQ _ ha) (hQ _ hb)

theorem not_isNaN (h : Ordered P) {a : R} (ha : P a) : isNaN a = false := by
  simp [isNaN, same, h.refl ha]

theorem le_upper (h : Ordered P) {a b : R} (ha : P a) (hb : P b) :
    a ≤ upper a b ∧ b ≤ upper a b := by
  simp only [upper, h.not_isNaN ha, h.not_isNaN hb, Bool.false_eq_true, if_false, greatest]
  split
  next hlt => exact ⟨h.le_of_lt ha hb hlt, h.refl hb⟩
  next hnot => exact ⟨h.refl ha, h.le_of_not_lt ha hb hnot⟩

theorem le_foldl_upper (h : Ordered P) {x : R} {xs : List R} (hP : ∀ y ∈ x :: xs, P y) :
    ∀ y ∈ x :: xs, y ≤ xs.foldl upper x := by
  induction xs generalizing x with
  | nil =>
    intro y hy
    cases List.mem_singleton.1 hy
    exact h.refl (hP _ List.mem_cons_self)
  | cons z xs ih =>
    have hx : P x := hP x List.mem_cons_self
    have hz : P z := hP z (List.mem_cons_of_mem _ List.mem_cons_self)
    have hrest : ∀ y ∈ xs, P y := fun y hy =>
      hP y (List.mem_cons_of_mem _ (List.mem_cons_of_mem _ hy))
    have hupper : P (upper x z) := by
      rcases upper_cases x z with heq | heq <;> rw [heq] <;> assumption
    have hmem : ∀ y ∈ upper x z :: xs, P y := List.forall_mem_cons.2 ⟨hupper, hrest⟩
    have hlargest : P (xs.foldl upper (upper x z)) := hmem _ (foldl_upper_mem _ _)
    have hle : upper x z ≤ xs.foldl upper (upper x z) := ih hmem _ List.mem_cons_self
    obtain ⟨hxle, hzle⟩ := h.le_upper hx hz
    intro y hy
    rcases List.mem_cons.1 hy with rfl | hy
    · exact h.trans hx hupper hlargest hxle hle
    · rcases List.mem_cons.1 hy with rfl | hy
      · exact h.trans hz hupper hlargest hzle hle
      · exact ih hmem y (List.mem_cons_of_mem _ hy)

/-- The largest of some numbers is at least each of them. -/
theorem le_maximum? (h : Ordered P) {xs : List R} (hP : ∀ x ∈ xs, P x) {m : R}
    (hm : Vec.maximum? (.ofList xs) = some m) : ∀ x ∈ xs, x ≤ m := by
  cases xs with
  | nil => cases hm
  | cons x xs =>
    cases hm
    exact h.le_foldl_upper hP

end Scalar.Ordered

/-! ## Exact numbers -/

theorem Exact.ordered : Scalar.Ordered fun x : Exact => x ≠ .undefined where
  refl := Exact.le_self
  trans _ _ _ := Exact.le_trans
  le_of_lt _ _ := Exact.le_of_lt
  le_of_not_lt := Exact.le_of_not_less

/-! ## Double precision numbers -/

namespace FloatOrder

open Float.Model (UnpackedFloat)

/-- The rank of a number that is defined: its kind, its exponent and its mantissa. -/
def rank : UnpackedFloat → Option (ℤ ×ₗ ℤ ×ₗ ℤ)
  | .notANumber => none
  | .infinity .negative => some (toLex (-2, toLex (0, 0)))
  | .finite .negative m e _ => some (toLex (-1, toLex (-e, -m)))
  | .zero _ => some (toLex (0, toLex (0, 0)))
  | .finite .positive m e _ => some (toLex (1, toLex (e, m)))
  | .infinity .positive => some (toLex (2, toLex (0, 0)))

theorem compare_toLex (a b c x y z : ℤ) :
    compare (toLex (a, toLex (b, c))) (toLex (x, toLex (y, z))) =
      (compare a x).then ((compare b y).then (compare c z)) := by
  simp only [Prod.Lex.compare_def, compareLex, compareOn, ofLex_toLex]

theorem compare_neg (a b : ℤ) : compare (-a) (-b) = (compare a b).swap := by
  have hneg : StrictAnti fun z : ℤ => -z := fun _ _ h => neg_lt_neg h
  rw [← cmp_eq_compare (-a), ← cmp_eq_compare a, cmp_swap]
  exact hneg.cmp_map_eq a b

theorem compare_cast (m n : ℕ) : compare (m : ℤ) (n : ℤ) = compare m n := by
  rw [← cmp_eq_compare (m : ℤ), ← cmp_eq_compare m]
  exact (Nat.strictMono_cast (α := ℤ)).cmp_map_eq m n

theorem compare_positive (e f : ℤ) (m n : ℕ) : (compare e f).then (compare m n) =
    compare (toLex ((1 : ℤ), toLex (e, (m : ℤ)))) (toLex ((1 : ℤ), toLex (f, (n : ℤ)))) := by
  rw [compare_toLex, compare_cast]
  rfl

theorem compare_negative (e f : ℤ) (m n : ℕ) : ((compare e f).then (compare m n)).swap =
    compare (toLex ((-1 : ℤ), toLex (-e, -(m : ℤ)))) (toLex ((-1 : ℤ), toLex (-f, -(n : ℤ)))) := by
  rw [compare_toLex, compare_neg e, compare_neg m, compare_cast, Ordering.swap_then]
  rfl

/-- Two numbers compare as their ranks do, and not at all if one of them is undefined. -/
theorem compare_rank (a b : UnpackedFloat) :
    a.compare b = (rank a).bind fun x => (rank b).map fun y => compare x y := by
  -- by the kinds of both numbers; only two finite ones of the same sign are looked at further
  rcases a with (_ | _) | _ | (_ | _) | ⟨_ | _, m, e, hm⟩ <;>
  rcases b with (_ | _) | _ | (_ | _) | ⟨_ | _, n, f, hn⟩ <;>
  first
  | rfl
  | exact congrArg some (compare_positive _ _ _ _)
  | exact congrArg some (compare_negative _ _ _ _)

theorem le_iff {a b : UnpackedFloat} : a.le b = true ↔ ∃ x ∈ rank a, ∃ y ∈ rank b, x ≤ y := by
  rw [UnpackedFloat.le, compare_rank]
  cases rank a with
  | none => simp
  | some x =>
    cases rank b with
    | none => simp
    | some y => simp [Ordering.isLE_iff_ne_gt, compare_le_iff_le]

theorem lt_iff {a b : UnpackedFloat} : a.lt b = true ↔ ∃ x ∈ rank a, ∃ y ∈ rank b, x < y := by
  rw [UnpackedFloat.lt, compare_rank]
  cases rank a with
  | none => simp
  | some x =>
    cases rank b with
    | none => simp
    | some y => simp [compare_lt_iff_lt]

/-- The rank of a double precision number that is defined. -/
def rankOf (x : Float) : Option (ℤ ×ₗ ℤ ×ₗ ℤ) := rank x.toModel.unpack

theorem float_le_iff {x y : Float} : x ≤ y ↔ ∃ a ∈ rankOf x, ∃ b ∈ rankOf y, a ≤ b :=
  (decide_eq_true_iff (p := x.toModel ≤ y.toModel)).trans le_iff

theorem float_lt_iff {x y : Float} : x < y ↔ ∃ a ∈ rankOf x, ∃ b ∈ rankOf y, a < b :=
  (decide_eq_true_iff (p := x.toModel < y.toModel)).trans lt_iff

theorem exists_rank_of_isFinite {x : Float} (h : x.isFinite = true) : ∃ a, rankOf x = some a := by
  have hfinite : x.toModel.unpack.isFinite = true := h
  unfold rankOf
  generalize x.toModel.unpack = z at hfinite
  cases z with
  | notANumber | infinity => cases hfinite
  | zero => exact ⟨_, rfl⟩
  | finite sign => cases sign <;> exact ⟨_, rfl⟩

end FloatOrder

open FloatOrder

theorem Numeral.real_le {x y : Float} : Numeral.real x ≤ Numeral.real y ↔ x ≤ y :=
  decide_eq_true_iff

theorem Numeral.real_lt {x y : Float} : Numeral.real x < Numeral.real y ↔ x < y :=
  decide_eq_true_iff

/-- The real numerals that have a rank are in order. -/
theorem Numeral.ordered :
    Scalar.Ordered fun a : Numeral => ∃ x r, a = .real x ∧ rankOf x = some r where
  refl := by
    rintro _ ⟨x, r, rfl, hx⟩
    exact real_le.2 (float_le_iff.2 ⟨r, hx, r, hx, le_rfl⟩)
  trans := by
    rintro _ _ _ ⟨x, r, rfl, hx⟩ ⟨y, s, rfl, hy⟩ ⟨z, t, rfl, hz⟩ hxy hyz
    rw [real_le, float_le_iff] at hxy hyz ⊢
    simp only [hx, hy, hz, Option.mem_some_iff, exists_eq_left'] at hxy hyz ⊢
    exact hxy.trans hyz
  le_of_lt := by
    rintro _ _ ⟨x, r, rfl, hx⟩ ⟨y, s, rfl, hy⟩ hlt
    rw [real_lt, float_lt_iff] at hlt
    rw [real_le, float_le_iff]
    simp only [hx, hy, Option.mem_some_iff, exists_eq_left'] at hlt ⊢
    exact hlt.le
  le_of_not_lt := by
    rintro _ _ ⟨x, r, rfl, hx⟩ ⟨y, s, rfl, hy⟩ hnot
    rw [real_lt, float_lt_iff] at hnot
    rw [real_le, float_le_iff]
    simp only [hx, hy, Option.mem_some_iff, exists_eq_left'] at hnot ⊢
    exact not_lt.1 hnot

end RootFinding
