import Mathlib.Analysis.SpecialFunctions.Pow.Complex
import RootFinding.Proofs.ExactEntry

/-!
# Complex numbers of exact arithmetic

Pairs of exact numbers as entries that carry an imaginary part. What is stated over all exact
entries holds of problems with complex unknowns by the last instance.
-/

namespace RootFinding

open Exact

/-- A complex number with exact parts. -/
structure ExactComplex where
  re : Exact
  im : Exact

namespace ExactComplex

noncomputable section

/-- The entry of a complex number. -/
def ofComplex (z : ℂ) : ExactComplex := ⟨real z.re, real z.im⟩

def mul (z w : ExactComplex) : ExactComplex :=
  ⟨z.re * w.re - z.im * w.im, z.re * w.im + z.im * w.re⟩

/-- Quotients scale by the larger part of the divisor. -/
def div (z w : ExactComplex) : ExactComplex :=
  if Scalar.same w.re 0.0 && Scalar.same w.im 0.0 then
    ⟨z.re / Scalar.abs w.re, z.im / Scalar.abs w.re⟩
  else if Scalar.abs w.im ≤ Scalar.abs w.re then
    let ratio := w.im / w.re
    let scale := 1.0 / (w.re + w.im * ratio)
    ⟨(z.re + z.im * ratio) * scale, (z.im - z.re * ratio) * scale⟩
  else
    let ratio := w.re / w.im
    let scale := 1.0 / (w.im + w.re * ratio)
    ⟨(z.re * ratio + z.im) * scale, (z.im * ratio - z.re) * scale⟩

/-- The principal square root. -/
def sqrt : ExactComplex → ExactComplex
  | ⟨real x, real y⟩ => ofComplex ((⟨x, y⟩ : ℂ) ^ (1 / (2 : ℕ) : ℂ))
  | _ => ⟨undefined, undefined⟩

/-- The larger number by real part and then by imaginary part. -/
def maximum (z w : ExactComplex) : ExactComplex :=
  if Scalar.isNaN z.re || Scalar.isNaN z.im then z
  else if Scalar.isNaN w.re || Scalar.isNaN w.im then w
  else if z.re < w.re ∨ Scalar.same z.re w.re ∧ z.im < w.im then w
  else z

instance : Entry Exact ExactComplex where
  add z w := ⟨z.re + w.re, z.im + w.im⟩
  sub z w := ⟨z.re - w.re, z.im - w.im⟩
  mul := mul
  div := div
  neg z := ⟨-z.re, -z.im⟩
  ofReal a := ⟨a, real 0⟩
  imaginary a := ⟨real 0, a⟩
  re := re
  im := im
  isReal _ := false
  conj z := ⟨z.re, -z.im⟩
  abs z := Scalar.sqrt (z.re * z.re + z.im * z.im)
  sqrt := sqrt
  maximum := maximum
  write style z :=
    let tail := Written.write style z.im
    let sign := if tail.startsWith "-" then "" else "+"
    Written.write style z.re ++ sign ++ tail ++ "j"

end

/-- What the numerator of a quotient is scaled by is not zero. -/
theorem scale_ne_zero {a : ℝ} (ha : a ≠ 0) (b : ℝ) : a + b * (b / a) ≠ 0 := by
  have hquotient : a + b * (b / a) = (a * a + b * b) / a := by
    field_simp
  have hsquares : 0 < a * a + b * b :=
    add_pos_of_pos_of_nonneg (mul_self_pos.2 ha) (mul_self_nonneg b)
  rw [hquotient]
  exact div_ne_zero hsquares.ne' ha

theorem ofComplex_div (z : ℂ) {w : ℂ} (hw : w ≠ 0) :
    ofComplex z / ofComplex w = ofComplex (z / w) := by
  have hzero : (0.0 : Exact) = real 0 := by norm_num
  have hone : (1.0 : Exact) = real 1 := by norm_num
  have hparts : (Scalar.same (real w.re) (real 0) && Scalar.same (real w.im) (real 0)) = false := by
    rw [← Bool.not_eq_true, Bool.and_eq_true_iff, same_iff, same_iff]
    rintro ⟨hre, him⟩
    exact hw (Complex.ext (Exact.real.inj hre) (Exact.real.inj him))
  change div (ofComplex z) (ofComplex w) = _
  unfold div
  simp only [ofComplex, hzero, hone, hparts, Bool.false_eq_true, if_false]
  by_cases hle : Scalar.abs (real w.im) ≤ Scalar.abs (real w.re)
  · have hre : w.re ≠ 0 := by
      intro h
      have him : |w.im| ≤ |w.re| := hle
      rw [h, abs_zero, abs_nonpos_iff] at him
      exact hw (Complex.ext h him)
    rw [if_pos hle]
    simp only [real_div hre, real_mul, real_add, real_sub, real_div (scale_ne_zero hre w.im),
      Complex.div_re, Complex.div_im, Complex.normSq_apply]
    congr 2
    · field_simp
    · field_simp
  · have him : w.im ≠ 0 := by
      rintro h
      refine hle ?_
      change |w.im| ≤ |w.re|
      rw [h, abs_zero]
      exact abs_nonneg _
    rw [if_neg hle]
    simp only [real_div him, real_mul, real_add, real_sub, real_div (scale_ne_zero him w.re),
      Complex.div_re, Complex.div_im, Complex.normSq_apply]
    congr 2
    · field_simp
      ring
    · field_simp
      ring

noncomputable instance : ExactEntry ℂ ExactComplex where
  number := ofComplex
  number_injective z w h := by
    obtain ⟨hre, him⟩ := ExactComplex.mk.inj h
    exact Complex.ext (Exact.real.inj hre) (Exact.real.inj him)
  isFinite_iff x := by
    constructor
    · intro h
      obtain ⟨hre, him⟩ := Bool.and_eq_true_iff.1 h
      obtain ⟨a, ha⟩ := isReal_iff.1 hre
      obtain ⟨b, hb⟩ := isReal_iff.1 him
      exact ⟨⟨a, b⟩, by cases x; cases ha; cases hb; rfl⟩
    · rintro ⟨z, rfl⟩
      rfl
  ofReal a := rfl
  zeroAs x := by
    have hzero : (0.0 : Exact) = real 0 := by norm_num
    exact congrArg (ExactComplex.mk (real 0)) hzero
  add z w := rfl
  sub z w := congrArg₂ ExactComplex.mk real_sub real_sub
  mul z w := by
    change ExactComplex.mk (real z.re * real w.re - real z.im * real w.im)
      (real z.re * real w.im + real z.im * real w.re) = _
    simp only [real_mul, real_sub, real_add]
    rfl
  div z _ hw := ofComplex_div z hw
  abs z := by
    change Scalar.sqrt (real z.re * real z.re + real z.im * real z.im) = _
    rw [real_mul, real_mul, real_add, ← Complex.normSq_apply, sqrt_real (Complex.normSq_nonneg z),
      Complex.norm_def]
  isZero_iff x := by
    have hzero : (0.0 : Exact) = real 0 := by norm_num
    change (Scalar.same x.re 0.0 && Scalar.same x.im (real 0)) = true ↔ _
    rw [hzero, Bool.and_eq_true_iff, same_iff, same_iff]
    constructor
    · rintro ⟨hre, him⟩
      exact congrArg₂ ExactComplex.mk hre him
    · intro h
      exact ⟨congrArg re h, congrArg im h⟩
  isFinite_sub {x y} h := by
    simp only [Entry.isFinite, Bool.and_eq_true_iff] at h ⊢
    obtain ⟨hre, hre'⟩ := isReal_sub h.1
    obtain ⟨him, him'⟩ := isReal_sub h.2
    exact ⟨⟨hre, him⟩, hre', him'⟩
  isReal_eq _ _ := rfl

end ExactComplex

end RootFinding
