import RootFinding.Proofs.ExactMatrix
import RootFinding.Proofs.Outcome

/-!
# Jacobians of exact arithmetic

What becomes a Jacobian is a matrix of finite numbers, unless it is free.

* `Problem.ZeroFilled`: the sparse Jacobians of the caller are zero where they hold no entry. Those
  from differences are.
* `Problem.jacobianAt_reads`: the numbers of a Jacobian that is answered.
-/

namespace RootFinding

open Action Exact

/-- The sparse Jacobians of the caller are zero where they hold no entry. -/
def Problem.ZeroFilled {σ R K : Type} [Scalar R] [Entry R K] (p : Problem σ R K) : Prop :=
  ∀ jac, p.jacobian = some jac → ∀ x w A w', jac x w = (.ok (.sparse A), w') → Entry.isZero A.zero

namespace Problem

variable {σ 𝕜 K : Type} [RCLike 𝕜] [Entry Exact K] [ExactEntry 𝕜 K] {p : Problem σ Exact K}

/-- A matrix is zero where it holds no entry. -/
def Filled : Matrix Exact K → Prop
  | .dense _ | .free _ => True
  | .sparse A => Entry.isZero A.zero = true

omit [RCLike 𝕜] [ExactEntry 𝕜 K] in
theorem analyticJacobian_filled (hp : p.ZeroFilled) (u : Vec K) (w : Workspace σ Exact K) :
    (p.analyticJacobian u).Ends w (fun J _ => Filled J ∧ ∀ A, J ≠ .free A) (fun _ _ => True) := by
  simp only [analyticJacobian, ends_bind, ends_ofFault]
  refine ⟨fun x _ => ?_, fun _ _ => trivial⟩
  cases hjac : p.jacobian with
  | none => trivial
  | some jac =>
    simp only [ends_bind, Workspace.call, ends_ofFun, ends_pure]
    refine ⟨fun J w' h => ?_, fun _ _ _ => trivial⟩
    cases J with
    | dense A | row v | number x => exact ⟨trivial, fun _ h => by cases h⟩
    | sparse A =>
      have hanswer : jac x w.world = (.ok (.sparse A), (jac x w.world).2) :=
        Prod.ext (Prod.mk.inj h).1 rfl
      exact ⟨hp jac hjac x _ A _ hanswer, fun _ h => by cases h⟩

variable (𝕜) in
include 𝕜 in
theorem rawJacobian_filled (hp : p.ZeroFilled) (s : JacobianSettings Exact) (u fu : Vec K)
    (w : Workspace σ Exact K) :
    (p.rawJacobian s u (some fu)).Ends w
      (fun J _ => Filled J ∧ (p.isMatrixFree s = false → ∀ A, J ≠ .free A)) (fun _ _ => True) := by
  unfold rawJacobian isMatrixFree
  cases p.jacobian with
  | some jac =>
    exact (analyticJacobian_filled hp u w).mono (fun _ _ h => ⟨h.1, fun _ => h.2⟩) (fun _ _ h => h)
  | none =>
    simp only [pure_bind]
    cases hs : s.concrete with
    | false => exact ⟨trivial, fun h => by cases h⟩
    | true =>
      simp only [Bool.not_true, Bool.false_eq_true, if_false]
      cases p.pattern with
      | some pattern =>
        refine ends_bind.2 (ends_true.mono (fun A _ _ => ⟨?_, fun _ _ h => by cases h⟩)
          fun _ _ h => h)
        rw [Sparse.ofPlaces_eq 𝕜 A]
        exact (ExactEntry.isZero_iff _).2 rfl
      | none =>
        exact ends_bind.2 (ends_true.mono (fun _ _ _ => ⟨trivial, fun _ _ h => by cases h⟩)
          fun _ _ h => h)

/-- A matrix that can serve as a Jacobian is free or has finite entries. -/
theorem reads_of_defect {J : Matrix Exact K} (hJ : Filled J) {m n : Nat}
    (h : jacobianDefect? J (some m) n = none) :
    (∃ M : FieldMatrix 𝕜 m n, J.Reads M) ∨ ∃ A, J = .free A := by
  unfold jacobianDefect? at h
  simp only [Option.isSome_some, Bool.true_and, Option.getD_some] at h
  split at h
  · cases h
  next hshape =>
    split at h
    · cases h
    next hfinite =>
      simp only [bne_iff_ne, ne_eq, Classical.not_not, Matrix.shape, List.cons.injEq, and_true]
        at hshape
      rw [Bool.not_eq_true', Bool.not_eq_false] at hfinite
      rcases hshape with ⟨hheight, hcols⟩
      cases J with
      | dense A => exact .inl (Dense.reads_of_isFinite hfinite hheight hcols)
      | sparse A =>
        exact .inl (Sparse.reads_of_isFinite ((ExactEntry.isZero_iff _).1 hJ) hfinite hheight hcols)
      | free A => exact .inr ⟨A, rfl⟩

/-- A Jacobian that is answered has finite entries, unless only its products are available. -/
theorem jacobianAt_reads (hp : p.ZeroFilled) (s : JacobianSettings Exact) {n : Nat} {u : Vec K}
    (hu : u.size = n) (fu : Vec K) (w : Workspace σ Exact K) :
    (p.jacobianAt s u (some fu)).Ends w
      (fun J _ => (∃ M : FieldMatrix 𝕜 fu.size n, J.Reads M) ∨
        p.isMatrixFree s = true ∧ ∃ A, J = .free A) (fun _ _ => True) := by
  subst hu
  unfold jacobianAt
  refine (ends_mapError.2 (rawJacobian_filled 𝕜 hp s u fu w)).bind (fun J w' hJ => ?_)
    (fun _ _ h => h)
  split
  next => trivial
  next hnone =>
    refine (reads_of_defect hJ.1 hnone).imp_right ?_
    rintro ⟨A, hA⟩
    cases hs : p.isMatrixFree s with
    | true => exact ⟨rfl, A, hA⟩
    | false => exact absurd hA (hJ.2 hs A)

end Problem

end RootFinding
