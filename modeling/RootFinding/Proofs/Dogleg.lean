import Mathlib.Algebra.QuadraticDiscriminant
import RootFinding.Strategy.Dogleg
import RootFinding.Proofs.NormalEquations

/-!
# Dogleg steps of exact arithmetic

A dogleg step between vectors of real numbers is a point of a path. Nothing is divided by zero on
the way to it, the boundary is crossed strictly between the two ends of the last piece, and the step
is as long as the region allows unless the Newton step is short enough.

* `RealVector.length`, `RealVector.scaled`, `RealVector.along`: lengths and points of lines.
* `RealVector.crossing_spec`: where a line crosses a sphere from the inside to the outside.
* `DoglegPath`: the ways to a dogleg step, with the numbers that are divided by.
* `LinearModel.dogleg_path`: the step that is computed is on the path.
* `LinearModel.dogleg_within`: it stays in the region.
-/

open scoped Matrix

namespace RealVector

variable {m n : Nat} {x y : Fin n → ℝ} {a b c r : ℝ}

/-- The euclidean length. -/
noncomputable def length (x : Fin n → ℝ) : ℝ := √(x ⬝ᵥ x)

def scaled (a : ℝ) (x : Fin n → ℝ) : Fin n → ℝ := fun i => a * x i

/-- The point at `t` on the line from `x` in the direction of `y`. -/
def along (x y : Fin n → ℝ) (t : ℝ) : Fin n → ℝ := x + scaled t y

theorem dot_self_nonneg (x : Fin n → ℝ) : 0 ≤ x ⬝ᵥ x :=
  Finset.sum_nonneg fun i _ => mul_self_nonneg (x i)

theorem length_nonneg (x : Fin n → ℝ) : 0 ≤ length x := Real.sqrt_nonneg _

theorem length_mul_self (x : Fin n → ℝ) : length x * length x = x ⬝ᵥ x :=
  Real.mul_self_sqrt (dot_self_nonneg x)

theorem length_eq_zero : length x = 0 ↔ x = 0 := by
  rw [length, Real.sqrt_eq_zero (dot_self_nonneg x), dotProduct_self_eq_zero]

theorem scaled_dot (a : ℝ) (x y : Fin n → ℝ) : scaled a x ⬝ᵥ y = a * (x ⬝ᵥ y) :=
  smul_dotProduct a x y

theorem dot_scaled (a : ℝ) (x y : Fin n → ℝ) : x ⬝ᵥ scaled a y = a * (x ⬝ᵥ y) :=
  dotProduct_smul a x y

theorem length_scaled (a : ℝ) (x : Fin n → ℝ) : length (scaled a x) = |a| * length x := by
  rw [length, scaled_dot, dot_scaled, ← mul_assoc, Real.sqrt_mul (mul_self_nonneg a),
    Real.sqrt_mul_self_eq_abs, length]

theorem along_dot_self (x y : Fin n → ℝ) (t : ℝ) :
    along x y t ⬝ᵥ along x y t = y ⬝ᵥ y * (t * t) + 2 * (x ⬝ᵥ y) * t + x ⬝ᵥ x := by
  rw [along, add_dotProduct, dotProduct_add, dotProduct_add, scaled_dot, scaled_dot, dot_scaled,
    dot_scaled, dotProduct_comm y x]
  ring

/-- The square of the length of a vector that is reached by way of another one. -/
theorem length_mul_self_of_way (x y : Fin n → ℝ) :
    length y * length y = (y - x) ⬝ᵥ (y - x) + 2 * (x ⬝ᵥ (y - x)) + length x * length x := by
  rw [length_mul_self, length_mul_self, sub_dotProduct, dotProduct_sub, dotProduct_sub,
    dotProduct_comm y x]
  ring

theorem dot_self_pos_of_length_lt (h : length x < length y) : 0 < (y - x) ⬝ᵥ (y - x) := by
  refine lt_of_le_of_ne (dot_self_nonneg _) fun hzero => ?_
  rw [eq_comm, dotProduct_self_eq_zero, sub_eq_zero] at hzero
  rw [hzero] at h
  exact lt_irrefl _ h

/-- The line from `x` in the direction of `y` crosses the sphere of radius `r` at `t`, strictly
between its ends: the larger root of a quadratic equation. -/
structure Crossing (x y : Fin n → ℝ) (r t : ℝ) : Prop where
  divisor : 2 * (y ⬝ᵥ y) ≠ 0
  discriminant : 0 < discrim (y ⬝ᵥ y) (2 * (x ⬝ᵥ y)) (length x * length x - r * r)
  root : t = (-(2 * (x ⬝ᵥ y)) +
    √(discrim (y ⬝ᵥ y) (2 * (x ⬝ᵥ y)) (length x * length x - r * r))) / (2 * (y ⬝ᵥ y))
  pos : 0 < t
  lt_one : t < 1

theorem Crossing.length_eq {t : ℝ} (h : Crossing x y r t) (hr : 0 < r) :
    length (along x y t) = r := by
  have hroot := (quadratic_eq_zero_iff (right_ne_zero_of_mul h.divisor)
    (Real.mul_self_sqrt h.discriminant.le).symm t).2 (.inl h.root)
  rw [length_mul_self] at hroot
  have hsquare : r * r = along x y t ⬝ᵥ along x y t := by
    rw [along_dot_self]
    linarith
  rw [length, ← hsquare, Real.sqrt_mul_self hr.le]

/-- The larger root of a quadratic function that is negative at zero and positive at one. -/
theorem larger_root_mem {a b c : ℝ} (ha : 0 < a) (hc : c < 0) (hone : 0 < a + b + c) :
    0 < discrim a b c ∧ 0 < (-b + √(discrim a b c)) / (2 * a) ∧
      (-b + √(discrim a b c)) / (2 * a) < 1 := by
  have hsquare : b ^ 2 < discrim a b c := by
    rw [discrim]
    linarith [mul_neg_of_pos_of_neg ha hc]
  have habove : b < √(discrim a b c) := lt_of_le_of_lt (le_abs_self b)
    (Real.lt_sqrt_of_sq_lt (by rwa [sq_abs]))
  have hbelow : √(discrim a b c) < 2 * a + b := by
    rw [Real.sqrt_lt' (by linarith), discrim]
    linarith [mul_pos ha hone]
  have hdivisor : 0 < 2 * a := by linarith
  refine ⟨lt_of_le_of_lt (sq_nonneg b) hsquare, div_pos (by linarith) hdivisor, ?_⟩
  rw [div_lt_one hdivisor]
  linarith

/-- The way from a point within a sphere to one outside of it crosses the sphere. -/
theorem exists_crossing (hx : length x < r) (hy : r < length y) :
    ∃ t, Crossing x (y - x) r t := by
  have hsquare := dot_self_pos_of_length_lt (hx.trans hy)
  have hwithin : length x * length x - r * r < 0 :=
    sub_neg.2 (mul_self_lt_mul_self (length_nonneg x) hx)
  have hend : 0 < (y - x) ⬝ᵥ (y - x) + 2 * (x ⬝ᵥ (y - x)) + (length x * length x - r * r) := by
    have hbeyond := mul_self_lt_mul_self ((length_nonneg x).trans hx.le) hy
    rw [length_mul_self_of_way x y] at hbeyond
    linarith
  obtain ⟨hdiscriminant, hpos, hone⟩ := larger_root_mem hsquare hwithin hend
  exact ⟨_, mul_ne_zero two_ne_zero hsquare.ne', hdiscriminant, rfl, hpos, hone⟩

end RealVector

namespace RootFinding

open Exact RealVector

/-! ## Vectors -/

namespace Vec

variable {n : Nat} {v w : Vec Exact} {x y : Fin n → ℝ}

theorem Holds.dot (hv : v.Holds x) (hw : w.Holds y) : v.dot w = real (x ⬝ᵥ y) := Reads.dot hv hw

theorem Holds.scaled (hv : v.Holds x) (a : ℝ) : (real a • v : Vec Exact).Holds (scaled a x) :=
  hv.smul a

theorem Holds.add (hv : v.Holds x) (hw : w.Holds y) : (v + w).Holds (x + y) := Reads.add hv hw

theorem Holds.align_sub (hv : v.Holds x) (hw : w.Holds y) :
    Vec.align (· - ·) v w = .ok (v - w) ∧ (v - w).Holds (x - y) :=
  ⟨if_pos (hv.size.trans hw.size.symm), Reads.sub hv hw⟩

theorem Holds.norm (hv : v.Holds x) : v.norm = real (length x) := by
  have hsquares : (v.map Entry.normSq : Vec Exact).Holds fun i => x i * x i :=
    Reads.map hv (f := Entry.normSq) (g := fun a => a * a) fun a => by
      change real (a * a) + real (0 * 0) = real (a * a)
      rw [real_add, mul_zero, add_zero]
  have htotal : (v.map Entry.normSq : Vec Exact).total = real (x ⬝ᵥ x) := Reads.total hsquares
  rw [Vec.norm, normSq, htotal, sqrt_real (dot_self_nonneg x), length]

end Vec

/-! ## The path -/

variable {k n : Nat} {x g : Fin n → ℝ} {j : Fin k → ℝ} {r : ℝ} {d : Fin n → ℝ}

/-- The least point down the gradient of a model, where `j` is the product of the Jacobian with the
gradient. -/
noncomputable def cauchyPoint (g : Fin n → ℝ) (j : Fin k → ℝ) : Fin n → ℝ :=
  scaled (-(length g * length g / (j ⬝ᵥ j))) g

/-- The ways to a dogleg step of a model with the Newton step `x`, the gradient `g` and its product
`j` with the Jacobian, in the region of radius `r`. Each names what is divided by on the way. -/
inductive DoglegPath (x g : Fin n → ℝ) (j : Fin k → ℝ) (r : ℝ) : (Fin n → ℝ) → Prop
  | newton (short : length x ≤ r) : DoglegPath x g j r x
  /-- The Newton step is cut where there is no way down the gradient. -/
  | flat (long : r < length x) (level : length g = 0 ∨ j ⬝ᵥ j = 0) (divisor : length x ≠ 0) :
    DoglegPath x g j r (scaled (r / length x) x)
  /-- The way down the gradient is cut. -/
  | descent (long : r < length x) (slope : length g ≠ 0) (curvature : j ⬝ᵥ j ≠ 0)
    (far : r ≤ length (cauchyPoint g j)) : DoglegPath x g j r (scaled (-(r / length g)) g)
  /-- The way from the least point down the gradient to the Newton step is cut at `t`. -/
  | between {t : ℝ} (long : r < length x) (slope : length g ≠ 0) (curvature : j ⬝ᵥ j ≠ 0)
    (near : length (cauchyPoint g j) < r)
    (crossing : Crossing (cauchyPoint g j) (x - cauchyPoint g j) r t) :
    DoglegPath x g j r (along (cauchyPoint g j) (x - cauchyPoint g j) t)

namespace DoglegPath

/-- A short Newton step is taken as it is. -/
theorem eq_of_le (h : DoglegPath x g j r d) (short : length x ≤ r) : d = x := by
  cases h with
  | newton => rfl
  | flat long | descent long | between long => exact absurd short (not_le.2 long)

/-- A step that is not the whole Newton step goes to the boundary. -/
theorem length_eq (hr : 0 < r) (h : DoglegPath x g j r d) (long : r < length x) :
    length d = r := by
  cases h with
  | newton short => exact absurd short (not_le.2 long)
  | flat _ _ divisor =>
    rw [length_scaled, abs_of_nonneg (div_nonneg hr.le (length_nonneg x)),
      div_mul_cancel₀ r divisor]
  | descent _ slope =>
    rw [length_scaled, abs_neg, abs_of_nonneg (div_nonneg hr.le (length_nonneg g)),
      div_mul_cancel₀ r slope]
  | between _ _ _ _ crossing => exact crossing.length_eq hr

theorem length_le (hr : 0 < r) (h : DoglegPath x g j r d) : length d ≤ r := by
  rcases le_or_gt (length x) r with short | long
  · rw [h.eq_of_le short]
    exact short
  · exact (h.length_eq hr long).le

end DoglegPath

namespace LinearModel

variable {m : LinearModel Exact}

/-- The vectors of a model are the given real vectors. -/
structure Holds (m : LinearModel Exact) (x g : Fin n → ℝ) (j : Fin k → ℝ) : Prop where
  newton : m.newton.Holds x
  gradient : m.gradient.Holds g
  image : m.image.Holds j

theorem reach_eq {base dir : Vec Exact} {p q : Fin n → ℝ} {t : ℝ} (hp : base.Holds p)
    (hq : dir.Holds q) (h : Crossing p q r t) :
    reach base dir (real (length p)) (real r) = .ok (base + real t • dir) := by
  have hsize : ¬base.size ≠ dir.size := by rw [hp.size, hq.size, not_not]
  have htwo : (2.0 : Exact) = real 2 := by norm_num
  have hfour : (4.0 : Exact) = real 4 := by norm_num
  have hradius : Checked.square (real r) = .ok (real (r * r)) := rfl
  have hroot : (-(real 2 * real (p ⬝ᵥ q)) + Scalar.sqrt (Scalar.square (real 2 * real (p ⬝ᵥ q)) -
      real 4 * real (q ⬝ᵥ q) * (Scalar.square (real (length p)) - real (r * r)))) /
        (real 2 * real (q ⬝ᵥ q)) = real t := by
    have hdiscrim : 0 ≤ 2 * (p ⬝ᵥ q) * (2 * (p ⬝ᵥ q)) -
        4 * (q ⬝ᵥ q) * (length p * length p - r * r) := by
      rw [← sq]
      exact h.discriminant.le
    simp only [real_mul, real_sub, real_neg, square_real]
    rw [sqrt_real hdiscrim, real_add, real_div h.divisor, h.root, discrim, sq]
  unfold reach
  rw [if_neg hsize, hq.dot hq, hp.dot hq, hradius, htwo, hfour]
  exact congrArg (fun s => Except.ok (base + s • dir)) hroot

/-- The step of a model is on the path. -/
theorem dogleg_path (hm : m.Holds x g j) (hr : 0 < r) :
    ∃ v d, m.dogleg (real r) = .ok v ∧ v.Holds d ∧ DoglegPath x g j r d := by
  have hnewton : m.newton.norm = real (length x) := hm.newton.norm
  have hslope : m.gradient.norm = real (length g) := hm.gradient.norm
  have hcurvature : (Entry.re (m.image.dot m.image) : Exact) = real (j ⬝ᵥ j) :=
    hm.image.dot hm.image
  have hlevel : (Scalar.same (real (length g)) 0.0 || Scalar.same (real (j ⬝ᵥ j)) 0.0) = true ↔
      length g = 0 ∨ j ⬝ᵥ j = 0 := by
    have hzero : (0.0 : Exact) = real 0 := by norm_num
    rw [Bool.or_eq_true, hzero, same_iff, same_iff, real.injEq, real.injEq]
  unfold dogleg
  dsimp only
  rw [hnewton]
  by_cases short : length x ≤ r
  · rw [if_pos (real_le.2 short)]
    exact ⟨_, x, rfl, hm.newton, .newton short⟩
  have long : r < length x := not_le.1 short
  have hdivisor : length x ≠ 0 := (hr.trans long).ne'
  rw [if_neg (mt real_le.1 short), hslope, hcurvature]
  by_cases level : length g = 0 ∨ j ⬝ᵥ j = 0
  · rw [if_pos (hlevel.2 level), real_div hdivisor]
    exact ⟨_, _, rfl, hm.newton.scaled (r / length x), .flat long level hdivisor⟩
  obtain ⟨slope, curvature⟩ := not_or.1 level
  have hdescent : (real (-(length g * length g / (j ⬝ᵥ j))) • m.gradient : Vec Exact).Holds
      (cauchyPoint g j) := hm.gradient.scaled _
  rw [if_neg (mt hlevel.1 level), square_real, real_div curvature, real_neg,
    hdescent.norm]
  by_cases far : r ≤ length (cauchyPoint g j)
  · rw [if_pos (real_le.2 far), real_div slope, real_neg]
    exact ⟨_, _, rfl, hm.gradient.scaled (-(r / length g)), .descent long slope curvature far⟩
  have near : length (cauchyPoint g j) < r := not_le.1 far
  obtain ⟨halign, hway⟩ := hm.newton.align_sub hdescent
  obtain ⟨t, crossing⟩ := exists_crossing near long
  rw [if_neg (mt real_le.1 far), halign]
  exact ⟨_, _, reach_eq hdescent hway crossing, hdescent.add (hway.scaled t),
    .between long slope curvature near crossing⟩

/-- **The dogleg step stays in the region.**  For vectors of real numbers, unrelated to each other,
the step of a model is a point of the dogleg path. It is no longer than the radius, it is the Newton
step where that is no longer than the radius, and it is exactly as long as the radius elsewhere. -/
theorem dogleg_within (hm : m.Holds x g j) (hr : 0 < r) :
    ∃ v d, m.dogleg (real r) = .ok v ∧ v.Holds d ∧ DoglegPath x g j r d ∧ v.norm ≤ real r ∧
      (m.newton.norm ≤ real r → v = m.newton) ∧ (real r < m.newton.norm → v.norm = real r) := by
  obtain ⟨v, d, hv, hd, hpath⟩ := dogleg_path hm hr
  refine ⟨v, d, hv, hd, hpath, ?_⟩
  rw [hd.norm, hm.newton.norm]
  refine ⟨real_le.2 (hpath.length_le hr), fun short => ?_, fun long => ?_⟩
  · have hsame : d = x := hpath.eq_of_le (real_le.1 short)
    rw [hsame] at hd
    exact hd.trans hm.newton.symm
  · rw [hpath.length_eq hr (real_lt.1 long)]

/-- A model of one unknown whose Newton step goes beyond the least point down the gradient. -/
noncomputable def line : LinearModel Exact where
  newton := .ofList [real (-1)]
  gradient := .ofList [real 1]
  image := .ofList [real (2 : ℕ)]

theorem line_holds : line.Holds (fun _ : Fin 1 => -1) (fun _ : Fin 1 => 1) fun _ : Fin 1 => 2 where
  newton := rfl
  gradient := rfl
  image := rfl

theorem line_within :
    0 < (1 / 2 : ℝ) ∧ real (1 / 2) < line.newton.norm ∧
      ∃ v d, line.dogleg (real (1 / 2)) = .ok v ∧ v.Holds d ∧
        DoglegPath (fun _ : Fin 1 => -1) (fun _ : Fin 1 => 1) (fun _ : Fin 1 => 2) (1 / 2) d ∧
        v.norm = real (1 / 2) := by
  have hlong : real (1 / 2) < line.newton.norm := by
    rw [line_holds.newton.norm, real_lt]
    norm_num [length, dotProduct]
  obtain ⟨v, d, hv, hd, hpath, -, -, hnorm⟩ := dogleg_within line_holds one_half_pos
  exact ⟨one_half_pos, hlong, v, d, hv, hd, hpath, hnorm hlong⟩

end LinearModel

end RootFinding
