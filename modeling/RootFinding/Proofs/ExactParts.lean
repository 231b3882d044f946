import Mathlib.Analysis.Normed.Operator.Basic
import Mathlib.Topology.Algebra.Module.FiniteDimension
import RootFinding.Proofs.ExactComplex
import RootFinding.Proofs.NormalEquations

/-!
# Parts and norms of exact entries

The real and the imaginary part of a finite entry are those of its number, and so the norm of a
vector that is read is the euclidean length of its numbers.

* `ExactParts`: what these entries compute besides their field. Exact scalars and their complex
  numbers fulfil it.
* `euclidean`: the length, with the Cauchy-Schwarz inequality for sums of products that are not
  conjugated.
* `FieldMatrix.exists_damping`: the solutions of linear equations get as short as wanted if the
  diagonal is damped enough.
-/

open scoped Matrix

/-! ## Lengths -/

section Length

variable {𝕜 : Type} [RCLike 𝕜] {n : Nat}

/-- The euclidean length of a list of numbers. -/
noncomputable def euclidean (xs : List 𝕜) : ℝ := √(xs.map fun x => ‖x‖ ^ (2 : ℕ)).sum

theorem sum_squares_nonneg (xs : List 𝕜) : 0 ≤ (xs.map fun x => ‖x‖ ^ (2 : ℕ)).sum :=
  List.sum_nonneg fun a ha => by
    obtain ⟨x, -, rfl⟩ := List.mem_map.1 ha
    positivity

theorem euclidean_nonneg (xs : List 𝕜) : 0 ≤ euclidean xs := Real.sqrt_nonneg _

theorem euclidean_cons_sq (x : 𝕜) (xs : List 𝕜) :
    euclidean (x :: xs) ^ (2 : ℕ) = ‖x‖ ^ (2 : ℕ) + euclidean xs ^ (2 : ℕ) := by
  rw [euclidean, euclidean, Real.sq_sqrt (sum_squares_nonneg _),
    Real.sq_sqrt (sum_squares_nonneg _), List.map_cons, List.sum_cons]

/-- The Cauchy-Schwarz inequality for products that are not conjugated, as far as both lists
reach. -/
theorem norm_sum_zipWith_le (xs ys : List 𝕜) :
    ‖(List.zipWith (· * ·) xs ys).sum‖ ≤ euclidean xs * euclidean ys := by
  induction xs generalizing ys with
  | nil => simp [euclidean]
  | cons x xs ih =>
    cases ys with
    | nil => simp [euclidean]
    | cons y ys =>
      rw [List.zipWith_cons_cons, List.sum_cons]
      refine (norm_add_le _ _).trans ?_
      rw [norm_mul]
      have hrest : ‖x‖ * ‖y‖ + ‖(List.zipWith (· * ·) xs ys).sum‖ ≤
          ‖x‖ * ‖y‖ + euclidean xs * euclidean ys := by
        gcongr
        exact ih ys
      refine hrest.trans (le_of_sq_le_sq ?_ (mul_nonneg (euclidean_nonneg _) (euclidean_nonneg _)))
      rw [mul_pow, euclidean_cons_sq, euclidean_cons_sq]
      linarith [sq_nonneg (‖x‖ * euclidean ys - ‖y‖ * euclidean xs)]

/-- The length is at most the largest modulus times the number of entries. -/
theorem euclidean_ofFn_le (x : Fin n → 𝕜) : euclidean (List.ofFn x) ≤ n * ‖x‖ := by
  have hsum : ∑ i, ‖x i‖ ≤ n * ‖x‖ := by
    simpa using Finset.sum_le_card_nsmul Finset.univ (fun i => ‖x i‖) ‖x‖
      fun i _ => norm_le_pi_norm x i
  have hnonneg : 0 ≤ ∑ i, ‖x i‖ := Finset.sum_nonneg fun i _ => norm_nonneg (x i)
  refine Real.sqrt_le_iff.2 ⟨hnonneg.trans hsum, ?_⟩
  rw [List.map_ofFn, List.sum_ofFn]
  calc ∑ i, ‖x i‖ ^ (2 : ℕ) ≤ (∑ i, ‖x i‖) ^ (2 : ℕ) :=
        Finset.sum_sq_le_sq_sum_of_nonneg fun i _ => norm_nonneg (x i)
    _ ≤ (n * ‖x‖) ^ (2 : ℕ) := by gcongr

theorem euclidean_ofFn_mono {x y : Fin n → 𝕜} (h : ∀ i, ‖x i‖ ≤ ‖y i‖) :
    euclidean (List.ofFn x) ≤ euclidean (List.ofFn y) := by
  refine Real.sqrt_le_sqrt ?_
  rw [List.map_ofFn, List.map_ofFn, List.sum_ofFn, List.sum_ofFn]
  exact Finset.sum_le_sum fun i _ => pow_le_pow_left₀ (norm_nonneg _) (h i) _

/-- A damped matrix stretches by what its diagonal does, less what the matrix does. -/
theorem FieldMatrix.stretch_le (N : FieldMatrix 𝕜 n n) {d : Fin n → 𝕜} {floor damping : ℝ}
    (hfloor : ∀ i, floor ≤ RCLike.re (d i)) (hdamping : 0 ≤ damping) (y : Fin n → 𝕜) (i : Fin n) :
    damping * floor * ‖y i‖ ≤
      ‖(N.addDiagonal fun i => (damping : 𝕜) * d i) *ᵥ y‖ + ‖N *ᵥ y‖ := by
  have hrow : (damping : 𝕜) * d i * y i =
      ((N.addDiagonal fun i => (damping : 𝕜) * d i) *ᵥ y) i - (N *ᵥ y) i := by
    rw [FieldMatrix.addDiagonal, Matrix.add_mulVec, Pi.add_apply, Matrix.mulVec_diagonal,
      add_sub_cancel_left]
  have hdiagonal : floor ≤ ‖d i‖ := (hfloor i).trans (RCLike.re_le_norm _)
  calc damping * floor * ‖y i‖ ≤ damping * ‖d i‖ * ‖y i‖ := by gcongr
    _ = ‖(damping : 𝕜) * d i * y i‖ := by
      rw [norm_mul, norm_mul, RCLike.norm_ofReal, abs_of_nonneg hdamping]
    _ ≤ _ := by
      rw [hrow]
      exact (norm_sub_le _ _).trans (add_le_add (norm_le_pi_norm _ i) (norm_le_pi_norm _ i))

/-- What a damped matrix takes to bounded vectors gets as short as wanted with the damping. -/
theorem FieldMatrix.exists_damping (N : FieldMatrix 𝕜 n n) {d : Fin n → 𝕜} {floor : ℝ}
    (hfloor : 0 < floor) (hd : ∀ i, floor ≤ RCLike.re (d i)) {bound : ℝ} (hbound : 0 ≤ bound)
    {ε : ℝ} (hε : 0 < ε) :
    ∃ least : ℝ, ∀ damping, least ≤ damping → ∀ y : Fin n → 𝕜,
      ‖(N.addDiagonal fun i => (damping : 𝕜) * d i) *ᵥ y‖ ≤ bound →
        euclidean (List.ofFn y) ≤ ε := by
  obtain ⟨C, hC, hN⟩ : ∃ C : ℝ, 0 ≤ C ∧ ∀ y : Fin n → 𝕜, ‖N *ᵥ y‖ ≤ C * ‖y‖ :=
    ⟨_, norm_nonneg _, (Matrix.mulVecLin N).toContinuousLinearMap.le_opNorm⟩
  obtain ⟨gap, hgap, hscale⟩ : ∃ gap : ℝ, 0 < gap ∧ n * bound ≤ gap * ε := by
    refine ⟨(n * bound + 1) / ε, by positivity, ?_⟩
    rw [div_mul_cancel₀ _ hε.ne']
    exact (lt_add_one _).le
  refine ⟨(C + gap) / floor, fun damping hdamping y hy => ?_⟩
  have hlarge : C + gap ≤ damping * floor := (div_le_iff₀ hfloor).1 hdamping
  have hpositive : 0 < damping * floor := (add_pos_of_nonneg_of_pos hC hgap).trans_le hlarge
  have hnonneg : 0 ≤ damping := (pos_of_mul_pos_left hpositive hfloor.le).le
  have hsize : damping * floor * ‖y‖ ≤ bound + C * ‖y‖ := by
    rw [mul_comm, ← le_div_iff₀ hpositive]
    refine (pi_norm_le_iff_of_nonneg (by positivity)).2 fun i => ?_
    rw [le_div_iff₀ hpositive, mul_comm]
    exact (N.stretch_le hd hnonneg y i).trans (add_le_add hy (hN y))
  have hshort : gap * ‖y‖ ≤ bound := by
    have hle : (C + gap) * ‖y‖ ≤ damping * floor * ‖y‖ := by gcongr
    linarith
  refine (euclidean_ofFn_le y).trans (le_of_mul_le_mul_left ?_ hgap)
  calc gap * (n * ‖y‖) = n * (gap * ‖y‖) := by ring
    _ ≤ n * bound := by gcongr
    _ ≤ gap * ε := hscale

/-- The matrix of the normal equations with a multiple of the scaling `d` on its diagonal. -/
def FieldMatrix.damped {m : Nat} (M : FieldMatrix 𝕜 m n) (damping : ℝ) (d : Fin n → 𝕜) :
    FieldMatrix 𝕜 n n :=
  FieldMatrix.addDiagonal (Mᵀ * M) fun i => (damping : 𝕜) * d i

end Length

namespace RootFinding

open Exact ExactEntry

/-- What finite entries compute of their parts, their sign and their order. -/
class ExactParts (𝕜 : outParam Type) (K : Type) [RCLike 𝕜] [Entry Exact K] [ExactEntry 𝕜 K] :
    Prop where
  re (z : 𝕜) : Entry.re (number z : K) = real (RCLike.re z)
  im (z : 𝕜) : Entry.im (number z : K) = real (RCLike.im z)
  neg (z : 𝕜) : -(number z : K) = number (-z)
  /-- The larger of two numbers has a real part that is not below that of the first one. -/
  maximum (z w : 𝕜) : ∃ m : 𝕜, Entry.maximum (number z : K) (number w) = number m ∧
    RCLike.re z ≤ RCLike.re m

instance : ExactParts ℝ Exact where
  re _ := rfl
  im _ := rfl
  neg _ := rfl
  maximum z w := ⟨max z w, maximum_real z w, le_max_left z w⟩

instance : ExactParts ℂ ExactComplex where
  re _ := rfl
  im _ := rfl
  neg _ := rfl
  maximum z w := by
    have hdefined (x : ℝ) : Scalar.isNaN (real x) = false := by
      rw [← Bool.not_eq_true, isNaN_iff]
      simp
    change ∃ m : ℂ, ExactComplex.maximum (ExactComplex.ofComplex z) (ExactComplex.ofComplex w) =
      ExactComplex.ofComplex m ∧ z.re ≤ m.re
    simp only [ExactComplex.maximum, ExactComplex.ofComplex, hdefined, Bool.or_self,
      Bool.false_eq_true, if_false]
    by_cases hless : real z.re < real w.re ∨
        Scalar.same (real z.re) (real w.re) = true ∧ real z.im < real w.im
    · refine ⟨w, if_pos hless, ?_⟩
      rcases hless with hless | ⟨hsame, -⟩
      · exact (real_lt.1 hless).le
      · exact (Exact.real.inj (same_iff.1 hsame)).le
    · exact ⟨z, if_neg hless, le_rfl⟩

namespace Vec

variable {𝕜 K : Type} [RCLike 𝕜] [Entry Exact K] [ExactEntry 𝕜 K] [ExactParts 𝕜 K] {n : Nat}
  {v w : Vec K} {x y : Fin n → 𝕜}

theorem Reads.neg (hv : v.Reads x) : (-v).Reads (-x) :=
  hv.map fun a => ExactParts.neg a

omit [ExactParts 𝕜 K] in
theorem Reads.smul (hv : v.Reads x) (a : ℝ) :
    (real a • v : Vec K).Reads fun i => (a : 𝕜) * x i :=
  hv.map fun z => by rw [ExactEntry.ofReal, ExactEntry.mul]

theorem norm_numbers (xs : List 𝕜) : (numbers xs : Vec K).norm = real (euclidean xs) := by
  have hzero : (0.0 : Exact) = real 0 := by norm_num
  have hsquare (z : 𝕜) : Entry.normSq (number z : K) = real (‖z‖ ^ (2 : ℕ)) := by
    rw [Entry.normSq, ExactParts.re, ExactParts.im, real_mul, real_mul, real_add,
      RCLike.norm_sq_eq_def]
  have hsquares : ((numbers xs : Vec K).map Entry.normSq : Vec Exact) =
      numbers (xs.map fun x => ‖x‖ ^ (2 : ℕ)) := by
    simp only [numbers, ofList, map, List.map_map, Function.comp_def, hsquare]
    rfl
  have htotal : (numbers (xs.map fun x => ‖x‖ ^ (2 : ℕ)) : Vec Exact).total =
      real (xs.map fun x => ‖x‖ ^ (2 : ℕ)).sum := by
    rw [total, hzero, ← zero_add (List.sum _)]
    exact foldl_add_numbers (K := Exact) (0 : ℝ) _
  rw [Vec.norm, normSq, hsquares, htotal, sqrt_real (sum_squares_nonneg xs), euclidean]

theorem Reads.norm_single {v : Vec Exact} {x : ℝ} (hv : v.Reads ![x]) : v.norm = real |x| := by
  rw [hv, norm_numbers]
  simp [euclidean, Real.sqrt_sq_eq_abs]

omit [ExactParts 𝕜 K] in
theorem dot_numbers (xs ys : List 𝕜) :
    (numbers xs : Vec K).dot (numbers ys) = number (List.zipWith (· * ·) xs ys).sum := by
  rw [Vec.dot, zipWith_numbers ExactEntry.mul, sum_numbers]

omit [ExactParts 𝕜 K] in
theorem exists_numbers (hv : v.isFinite = true) : ∃ xs : List 𝕜, v = numbers xs := by
  obtain ⟨x, hx⟩ := reads_of_isFinite hv rfl
  exact ⟨_, hx⟩

/-- The larger numbers of two vectors have real parts that are not below those of the first. -/
theorem Reads.maximum (hv : v.Reads x) (hw : w.Reads y) :
    ∃ z : Fin n → 𝕜, (Vec.zipWith Entry.maximum v w).Reads z ∧
      ∀ i, RCLike.re (x i) ≤ RCLike.re (z i) := by
  choose z hz hle using fun i => ExactParts.maximum (K := K) (x i) (y i)
  exact ⟨z, hv.zipWith_of hw hz, hle⟩

end Vec

end RootFinding
