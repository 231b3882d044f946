import RootFinding.LinearSystem.Solve
import RootFinding.Proofs.Outcome

/-!
# Factorisations

What a call of `factorize` makes of a matrix, and what it leaves of the linear system. It stores the
matrix and drops the factors before the method looks at it, so the two ways in which it can end
differ in the factors, the count and the last solution only.

* `Backend.Prepares B A M factors`, `Backend.Declines B A M e`: the method `M` takes the matrix with
  these factors, or does not take it.
* `LinearSystem.factorized`: the linear system after a factorisation that returned.
* `LinearSystem.factorize_spec`: a call of `factorize`, by the two.
-/

namespace RootFinding

open Action

variable {σ R K : Type} [Scalar R] [Entry R K] {B : Backend σ R K} {A : Matrix R K}
  {M : SolveMethod} {e : Thrown R K} {factors : Option (Factors K)}

namespace LinearSystem

omit [Scalar R] [Entry R K] in
theorem toDense?_of_concrete {D : Dense K} (h : concrete A = .ok D) : A.toDense? = some D := by
  cases A with
  | dense A | sparse A =>
    cases h
    rfl
  | free A => cases h

omit [Scalar R] [Entry R K] in
theorem isSquare_of_toDense? {D : Dense K} (h : A.toDense? = some D) : D.isSquare = A.isSquare := by
  cases A with
  | dense A =>
    cases h
    rfl
  | sparse A =>
    cases h
    simp [Sparse.toDense, Grid.isSquare, Matrix.isSquare, Grid.map, Grid.height, Matrix.height,
      Matrix.cols, Sparse.height, Sparse.cols]
  | free A => cases h

omit [Scalar R] [Entry R K] in
theorem concrete_error {f : Fault} (h : concrete A = .error f) : f ≠ .noFactors := by
  cases A with
  | dense A | sparse A => cases h
  | free A =>
    cases h
    simp

end LinearSystem

/-! ## What a method makes of a matrix -/

namespace Backend

/-- The factors of a matrix that the method `M` takes. -/
inductive Prepares (B : Backend σ R K) (A : Matrix R K) : SolveMethod → Option (Factors K) → Prop
  | lu (D : Dense K) (dense : LinearSystem.concrete A = .ok D)
    (regular : singularDetails? (B.pivots D) D.height = none) : Prepares B A .lu (some (.lu D))
  | splu (D : Dense K) (dense : A.toDense? = some D) (square : D.isSquare = true)
    (regular : B.sparseSingular D = false) : Prepares B A .splu (some (.splu D))
  | gmres : Prepares B A .gmres none
  | lstsq (D : Dense K) (dense : LinearSystem.concrete A = .ok D) :
    Prepares B A .lstsq (some (.lstsq D))

/-- Why the method `M` does not take a matrix: it is singular, or it is of a form or a shape that
the method cannot take. -/
inductive Declines (B : Backend σ R K) (A : Matrix R K) : SolveMethod → Thrown R K → Prop
  | dense (D : Dense K) (details : String) (f : Failure R K) (dense : LinearSystem.concrete A = .ok D)
    (singular : singularDetails? (B.pivots D) D.height = some details)
    (kind : f.kind = .singularSystem) : Declines B A .lu (.failure f)
  | sparse (D : Dense K) (f : Failure R K) (dense : A.toDense? = some D)
    (singular : B.sparseSingular D = true) (kind : f.kind = .singularSystem) :
    Declines B A .splu (.failure f)
  | unfit (M : SolveMethod) (f : Fault) (method : M ≠ .gmres) (fault : f ≠ .noFactors) :
    Declines B A M (.fault f)

omit [Entry R K] in
theorem Declines.exists_dense {f : Failure R K} (h : B.Declines A M (.failure f)) :
    ∃ D, A.toDense? = some D := by
  cases h with
  | dense D _ _ dense => exact ⟨D, LinearSystem.toDense?_of_concrete dense⟩
  | sparse D _ dense => exact ⟨D, dense⟩

omit [Entry R K] in
theorem Declines.ne_gmres (h : B.Declines A M e) : M ≠ .gmres := by
  cases h with
  | dense | sparse => simp
  | unfit _ _ method _ => exact method

end Backend

/-! ## What is left -/

namespace LinearSystem

/-- The linear system after a factorisation of the matrix `A` by the method `M`. -/
def factorized (s : LinearSystem R K) (A : Matrix R K) (M : SolveMethod)
    (factors : Option (Factors K)) : LinearSystem R K :=
  let s := { s with method := some M, matrix := some A, factors }
  match M with
  | .lu | .splu => { s with factorizations := s.factorizations + 1 }
  | .gmres => { s with last := s.last.filter fun x => x.size == A.cols }
  | .lstsq => s

omit [Scalar R] [Entry R K] in
theorem factorized_method (s : LinearSystem R K) (A : Matrix R K) (M : SolveMethod)
    (factors : Option (Factors K)) : (s.factorized A M factors).method = some M := by
  cases M <;> rfl

omit [Scalar R] [Entry R K] in
theorem factorized_holds (s : LinearSystem R K) (A : Matrix R K) (M : SolveMethod)
    (factors : Option (Factors K)) :
    (s.factorized A M factors).matrix = some A ∧ (s.factorized A M factors).factors = factors := by
  cases M <;> exact ⟨rfl, rfl⟩

omit [Entry R K] in
/-- A factorisation that returns leaves the matrix with its factors, and one that does not leaves
the matrix without factors. -/
theorem factorize_spec (B : Backend σ R K) (A : Matrix R K) (w : Workspace σ R K) :
    (factorize B A).Ends w
      (fun _ t => ∃ factors, B.Prepares A (w.system.method.getD (.forMatrix A)) factors ∧
        t = { w with
          system := w.system.factorized A (w.system.method.getD (.forMatrix A)) factors })
      (fun e t => B.Declines A (w.system.method.getD (.forMatrix A)) e ∧
        t = { w with
          system := { w.system with
            method := some (w.system.method.getD (.forMatrix A))
            matrix := some A
            factors := none } }) := by
  unfold factorize
  simp only [ends_bind, ends_get, change, ends_modify]
  generalize w.system.method.getD (SolveMethod.forMatrix A) = M
  cases M with
  | lu =>
    simp only [factorizeDense, ends_bind, ends_ofFault]
    refine ⟨fun D hD => ?_, fun f hf => ⟨.unfit _ f (by simp) (concrete_error hf), trivial⟩⟩
    split
    next details hdetails => exact ⟨.dense D details _ hD hdetails rfl, rfl⟩
    next hregular => exact ⟨_, .lu D hD hregular, rfl⟩
  | splu =>
    unfold factorizeSparse
    cases hdense : A.toDense? with
    | none => exact ⟨.unfit _ _ (by simp) (by simp), rfl⟩
    | some D =>
      dsimp only
      split
      · exact ⟨.unfit _ _ (by simp) (by simp), rfl⟩
      next hsquare =>
        split
        next hsingular => exact ⟨.sparse D _ hdense hsingular rfl, rfl⟩
        next hregular =>
          exact ⟨_, .splu D hdense (by simpa using hsquare) (by simpa using hregular), rfl⟩
  | gmres => exact ⟨none, .gmres, rfl⟩
  | lstsq =>
    simp only [ends_bind, ends_ofFault]
    exact ⟨fun D hD => ⟨_, .lstsq D hD, rfl⟩,
      fun f hf => ⟨.unfit _ f (by simp) (concrete_error hf), trivial⟩⟩

omit [Entry R K] in
/-- A call of `factorize` chooses the method if there is none yet. -/
theorem factorize_method (B : Backend σ R K) (A : Matrix R K) (w : Workspace σ R K) :
    (factorize B A).Ends w
      (fun _ t => t.system.method = some (w.system.method.getD (.forMatrix A)))
      (fun _ t => t.system.method = some (w.system.method.getD (.forMatrix A))) := by
  refine (factorize_spec B A w).mono (fun _ t ht => ?_) fun _ t ht => ?_
  · obtain ⟨factors, -, rfl⟩ := ht
    exact factorized_method _ _ _ _
  · rw [ht.2]

end LinearSystem

end RootFinding
