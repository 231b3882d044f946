import Mathlib.Algebra.Order.Star.Real
import Mathlib.LinearAlgebra.Matrix.PosDef
import RootFinding.LinearSystem.Solve
import RootFinding.Proofs.ExactJacobian

/-!
# Damped normal equations

The matrices of exact arithmetic as matrices of real numbers, and the damped normal equations of a
least squares problem.

* `Vec.Holds`, `Matrix.Holds`: a vector or a matrix that is not free holds finitely many real
  numbers, as a case of what vectors and matrices of exact numbers read.
* `RealMatrix.damped`: the matrix of the damped normal equations. It is positive definite
  (`damped_posDef`), whatever the shape and the rank of the Jacobian, so the equations have one
  solution, which goes downhill (`exists_velocity`).
-/

open scoped Matrix

/-- Matrices of real numbers. -/
abbrev RealMatrix (m n : Nat) : Type := Matrix (Fin m) (Fin n) ℝ

namespace RealMatrix

variable {m n : Nat}

/-- The matrix with numbers added to its main diagonal. -/
def addDiagonal (N : RealMatrix n n) (d : Fin n → ℝ) : RealMatrix n n := N + Matrix.diagonal d

/-- The matrix of the normal equations with a multiple of the scaling `d` on its diagonal. -/
def damped (M : RealMatrix m n) (damping : ℝ) (d : Fin n → ℝ) : RealMatrix n n :=
  addDiagonal (Mᵀ * M) fun i => damping * d i

theorem damped_posDef (M : RealMatrix m n) {damping : ℝ} (hdamping : 0 < damping)
    {d : Fin n → ℝ} (hd : ∀ i, 0 < d i) : (M.damped damping d).PosDef := by
  have hgram : (Mᵀ * M).PosSemidef := by
    rw [← Matrix.conjTranspose_eq_transpose_of_trivial]
    exact Matrix.posSemidef_conjTranspose_mul_self M
  have hdiagonal : (Matrix.diagonal fun i => damping * d i).PosDef :=
    .diagonal fun i => mul_pos hdamping (hd i)
  exact hdiagonal.posSemidef_add hgram

/-- Equations with a positive definite matrix have one solution, and it goes against the right-hand
side. -/
theorem exists_velocity {N : RealMatrix n n} (hN : N.PosDef) (g : Fin n → ℝ) :
    ∃ v, (∀ w, N *ᵥ w = -g ↔ w = v) ∧ (g ≠ 0 → g ⬝ᵥ v < 0) := by
  have hunit : IsUnit N.det := (Matrix.isUnit_iff_isUnit_det N).1 hN.isUnit
  have hsolves : N *ᵥ (N⁻¹ *ᵥ -g) = -g := by
    rw [Matrix.mulVec_mulVec, Matrix.mul_nonsing_inv N hunit, Matrix.one_mulVec]
  refine ⟨N⁻¹ *ᵥ -g, fun w => ⟨fun hw => ?_, fun hw => ?_⟩, fun hg => ?_⟩
  · rw [← hw, Matrix.mulVec_mulVec, Matrix.nonsing_inv_mul N hunit, Matrix.one_mulVec]
  · rw [hw, hsolves]
  · have hne : N⁻¹ *ᵥ -g ≠ 0 := by
      intro hzero
      rw [hzero, Matrix.mulVec_zero] at hsolves
      exact hg (neg_eq_zero.1 hsolves.symm)
    have hpos := hN.dotProduct_mulVec_pos hne
    rw [hsolves, star_trivial, dotProduct_neg, dotProduct_comm] at hpos
    linarith

end RealMatrix

namespace RootFinding

open Exact

/-! ## Vectors -/

namespace Vec

/-- The vector of some real numbers. -/
def reals (xs : List ℝ) : Vec Exact := .ofList (xs.map real)

/-- The entries of a vector are the given real numbers. -/
def Holds {n : Nat} (v : Vec Exact) (x : Fin n → ℝ) : Prop := v = reals (List.ofFn x)

variable {n : Nat} {v w : Vec Exact} {x y : Fin n → ℝ}

theorem holds_iff_reads : v.Holds x ↔ v.Reads x := Iff.rfl

/-- No number of exact arithmetic has an imaginary part. -/
theorem isReal_exact (v : Vec Exact) : v.isReal = true :=
  List.all_eq_true.2 fun _ _ => rfl

theorem Holds.smul (hv : v.Holds x) (a : ℝ) :
    (real a • v : Vec Exact).Holds fun i => a * x i :=
  Reads.map hv fun _ => rfl

theorem Holds.neg (hv : v.Holds x) : (-v).Holds (-x) :=
  Reads.map hv fun _ => rfl

theorem Holds.maximum (hv : v.Holds x) (hw : w.Holds y) :
    (zipWith Entry.maximum v w).Holds fun i => max (x i) (y i) :=
  Reads.zipWith hv hw maximum_real

theorem holds_replicate (n : Nat) (a : ℝ) :
    (Vec.replicate n (real a)).Holds fun _ : Fin n => a :=
  reads_replicate n a

theorem Holds.size (hv : v.Holds x) : v.size = n := Reads.size hv

theorem Holds.inj (hv : v.Holds x) (hy : v.Holds y) : x = y := Reads.inj hv hy

end Vec

/-! ## Dense and sparse matrices -/

section Entries

variable {m n : Nat} {M : RealMatrix m n}

/-- The entries of a matrix are the given real numbers. -/
structure Dense.Holds {m n : Nat} (A : Dense Exact) (M : RealMatrix m n) : Prop where
  cols : A.cols = n
  rows : A.rows = List.ofFn fun i => (Vec.reals (List.ofFn (M i))).toList

theorem Dense.holds_iff_reads {A : Dense Exact} : A.Holds M ↔ A.Reads M :=
  ⟨fun h => ⟨h.cols, h.rows⟩, fun h => ⟨h.cols, h.rows⟩⟩

theorem Dense.Holds.height {A : Dense Exact} (hA : A.Holds M) : A.height = m :=
  (holds_iff_reads.1 hA).height

/-- The entries of a matrix are the given real numbers, and it is zero where it holds none. -/
structure Sparse.Holds {m n : Nat} (A : Sparse Exact) (M : RealMatrix m n) : Prop where
  zero : A.zero = real 0
  dense : (Sparse.toDense A).Holds M

theorem Sparse.holds_iff_reads {A : Sparse Exact} : A.Holds M ↔ A.Reads M :=
  ⟨fun h => ⟨h.zero, Dense.holds_iff_reads.1 h.dense⟩,
    fun h => ⟨h.zero, Dense.holds_iff_reads.2 h.dense⟩⟩

end Entries

/-! ## Matrices -/

namespace Matrix

/-- The entries of a matrix are the given real numbers. -/
def Holds {m n : Nat} : Matrix Exact Exact → RealMatrix m n → Prop
  | dense A, M => A.Holds M
  | sparse A, M => A.Holds M
  | free _, _ => False

variable {m n : Nat} {A : Matrix Exact Exact} {M : RealMatrix m n}

theorem holds_iff_reads : A.Holds M ↔ A.Reads M := by
  cases A with
  | dense A => exact Dense.holds_iff_reads
  | sparse A => exact Sparse.holds_iff_reads
  | free A => exact Iff.rfl

theorem Holds.height (hA : A.Holds M) : A.height = m := (holds_iff_reads.1 hA).height

theorem Holds.cols (hA : A.Holds M) : A.cols = n := (holds_iff_reads.1 hA).cols

theorem Holds.gram (hA : A.Holds M) : A.gram.Holds (Mᵀ * M) :=
  holds_iff_reads.2 (holds_iff_reads.1 hA).gram

/-- A product with a matrix, which leaves the workspace alone. -/
theorem Holds.apply (hA : A.Holds M) {v : Vec Exact} {x : Fin n → ℝ} (hv : v.Holds x) :
    ∃ y : Vec Exact, y.Holds (M *ᵥ x) ∧ ∀ {σ : Type} (F : Vec Exact → Work σ Exact Exact (Vec Exact))
      (w : Workspace σ Exact Exact), (A.apply F v).eval w = (.ok y, w) :=
  (holds_iff_reads.1 hA).apply hv

/-- A product with the transposed matrix; it is that of the real numbers where the vector holds
real numbers. -/
theorem Holds.applyTranspose (hA : A.Holds M) {v : Vec Exact} (hv : v.size = m) :
    ∃ g, A.applyTranspose v = .ok g ∧ ∀ f : Fin m → ℝ, v.Holds f → g.Holds (Mᵀ *ᵥ f) :=
  (holds_iff_reads.1 hA).applyTranspose hv

theorem Holds.diagonal {N : RealMatrix n n} (hA : A.Holds N) :
    A.diagonal.Holds fun i => N i i :=
  (holds_iff_reads.1 hA).diagonal

theorem Holds.addDiagonal {N : RealMatrix n n} (hA : A.Holds N) {v : Vec Exact} {d : Fin n → ℝ}
    (hv : v.Holds d) : (A.addDiagonal v).Holds (N.addDiagonal d) :=
  holds_iff_reads.2 ((holds_iff_reads.1 hA).addDiagonal hv)

/-- The dense matrix with the entries of a matrix. -/
theorem Holds.concrete {N : RealMatrix m n} (hA : A.Holds N) :
    ∃ D : Dense Exact, D.Holds N ∧ LinearSystem.concrete A = .ok D ∧ A.toDense? = some D := by
  cases A with
  | dense A => exact ⟨A, hA, rfl, rfl⟩
  | sparse A => exact ⟨_, Sparse.Holds.dense hA, rfl, rfl⟩
  | free A => exact hA.elim

end Matrix

/-! ## Jacobians -/

/-- A Jacobian that is answered has real entries. -/
theorem Problem.jacobianAt_holds {σ : Type} {p : Problem σ Exact Exact} (hp : p.ZeroFilled)
    {s : JacobianSettings Exact} (hs : s.concrete = true) {n : Nat} {u : Vec Exact}
    (hu : u.size = n) (fu : Vec Exact) (w : Workspace σ Exact Exact) :
    (p.jacobianAt s u (some fu)).Ends w
      (fun J _ => ∃ M : RealMatrix fu.size n, J.Holds M) (fun _ _ => True) := by
  have hformed : p.isMatrixFree s = false := by simp [Problem.isMatrixFree, hs]
  refine (p.jacobianAt_reads hp s hu fu w).mono (fun J _ hJ => ?_) (fun _ _ h => h)
  obtain ⟨M, hM⟩ := hJ.resolve_right fun h => Bool.false_ne_true (hformed.symm.trans h.1)
  exact ⟨M, Matrix.holds_iff_reads.2 hM⟩

end RootFinding
