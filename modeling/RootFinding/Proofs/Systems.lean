import RootFinding.Proofs.Routines
import RootFinding.Strategy.Basic

/-!
# Faults of linear systems

The faults that a linear system can end with when the sizes of its matrices and right-hand sides are
those of one problem, read off the choices that were made before the first matrix.

* `LinearSystem.Continues`: a linear system as a run finds it, against the one that it started with.
* `LinearSystem.Ready`: the matrix that was given last, with its factors.
* `LinearSystem.Escapes`: the faults.
* `LinearSystem.factorize_ends`, `LinearSystem.solve_ends`: nothing else happens.
-/

namespace RootFinding

open Action

variable {σ R K : Type} [Scalar R] [Entry R K] {P : K → Prop} {h n : Nat}
  {square free complex finite : Prop} {s₀ s : LinearSystem R K} {A : Matrix R K} {M : SolveMethod}

namespace LinearSystem

/-- The method that was chosen, or one that fits the shape of the matrices. -/
def Picks (s₀ : LinearSystem R K) (square : Prop) (M : SolveMethod) : Prop :=
  s₀.method = some M ∨ s₀.method = none ∧ (M = .lstsq ↔ ¬square)

/-- The linear system `s` of a run that started with `s₀`, for `n` unknowns, with matrices that are
`square` or not and all `free` or none. -/
structure Continues (s₀ : LinearSystem R K) (P : K → Prop) (n : Nat) (square free : Prop)
    (s : LinearSystem R K) : Prop where
  krylov : s.krylov = s₀.krylov
  unchosen : s.method = none → s₀.method = none
  picks {M : SolveMethod} : s.method = some M → s₀.Picks square M
  products {M : SolveMethod} : free → s.method = some M → M = .gmres
  last : ∀ x ∈ s.last, x.Fits P n

/-- The linear system holds a matrix that the method `M` can solve with. -/
structure Ready (s : LinearSystem R K) (A : Matrix R K) (M : SolveMethod) : Prop where
  method : s.method = some M
  matrix : s.matrix = some A
  lu : M = .lu → ∃ D, A.toDense? = some D ∧ s.factors = some (.lu D)
  splu : M = .splu → A.isSquare ∧ ∃ D, A.toDense? = some D ∧ s.factors = some (.splu D)
  lstsq : M = .lstsq → ∃ D, A.toDense? = some D ∧ s.factors = some (.lstsq D)

/-- The faults of a linear system with the choices of `s₀`. The matrices are `square` or not, there
may be `complex` entries, and all systems may be known to be `finite`. -/
inductive Escapes (s₀ : LinearSystem R K) (square complex finite : Prop) : Fault → Prop
  /-- Dense factors of a matrix that is not square. -/
  | notSquare (method : s₀.method = some .lu) (shape : ¬square) :
    Escapes s₀ square complex finite .notSquareFactors
  | unfit (method : s₀.method = some .splu ∨ s₀.method = some .gmres) (shape : ¬square) :
    Escapes s₀ square complex finite .unfitSystem
  /-- Real sparse factors and a complex right-hand side. -/
  | complexSide (method : s₀.Picks square .splu) (entries : complex) :
    Escapes s₀ square complex finite .complexValue
  | nonfinite (method : s₀.Picks square .lstsq) (entries : ¬finite) :
    Escapes s₀ square complex finite .nonfiniteSystem
  | noIteration (limit : s₀.krylov.restart = some 0 ∨ s₀.krylov.maxiter = some 0) :
    Escapes s₀ square complex finite .noIteration

omit [Scalar R] [Entry R K] in
/-- A method that needs square matrices was chosen, if the matrices are not. -/
theorem Picks.chosen (hpicks : s₀.Picks square M) (hM : M ≠ .lstsq) (hne : ¬square) :
    s₀.method = some M := by
  rcases hpicks with hpicks | ⟨-, hpicks⟩
  · exact hpicks
  · exact (hM (hpicks.2 hne)).elim

/-! ## Factorising -/

omit [Scalar R] [Entry R K] in
theorem concrete_eq (hfree : ¬A.IsFree) : ∃ D, concrete A = .ok D ∧ A.toDense? = some D := by
  cases A with
  | dense A => exact ⟨A, rfl, rfl⟩
  | sparse A => exact ⟨_, rfl, rfl⟩
  | free A => exact (hfree trivial).elim

theorem Continues.picks_getD (hs : s₀.Continues P n square free s) (hA : A.Fits P h n)
    (hsquare : square ↔ h = n) (hAfree : A.IsFree ↔ free) (hfree : free → square) :
    s₀.Picks square (s.method.getD (.forMatrix A)) ∧
      (free → s.method.getD (.forMatrix A) = .gmres) := by
  rcases hmethod : s.method with _ | M
  · have hunchosen := hs.unchosen hmethod
    simp only [Option.getD_none, SolveMethod.forMatrix]
    by_cases hshape : h = n
    · rw [if_pos (hA.isSquare.2 hshape)]
      have hsq : square := hsquare.2 hshape
      cases A with
      | dense A => exact ⟨.inr ⟨hunchosen, by simp [hsq]⟩, fun hf => (hAfree.2 hf).elim⟩
      | sparse A => exact ⟨.inr ⟨hunchosen, by simp [hsq]⟩, fun hf => (hAfree.2 hf).elim⟩
      | free A => exact ⟨.inr ⟨hunchosen, by simp [hsq]⟩, fun _ => rfl⟩
    · have hsq : ¬square := fun hsq => hshape (hsquare.1 hsq)
      rw [if_neg fun hshape' => hshape (hA.isSquare.1 hshape')]
      exact ⟨.inr ⟨hunchosen, by simp [hsq]⟩, fun hf => (hsq (hfree hf)).elim⟩
  · exact ⟨hs.picks hmethod, fun hf => hs.products hf hmethod⟩

omit [Scalar R] [Entry R K] in
/-- A linear system that takes a matrix goes on with the method for it. -/
theorem Continues.takes {t : LinearSystem R K} (hs : s₀.Continues P n square free s)
    (hpicks : s₀.Picks square M) (hproducts : free → M = .gmres) (hkrylov : t.krylov = s.krylov)
    (hmethod : t.method = some M) (hlast : ∀ x ∈ t.last, x ∈ s.last) :
    s₀.Continues P n square free t := by
  refine ⟨hkrylov.trans hs.krylov, fun hnone => ?_, fun hsome => ?_, fun hfree hsome => ?_,
    fun x hx => hs.last x (hlast x hx)⟩
  · rw [hmethod] at hnone
    cases hnone
  · rw [hmethod] at hsome
    cases hsome
    exact hpicks
  · rw [hmethod] at hsome
    cases hsome
    exact hproducts hfree

/-- What taking the matrix `A` for the method `M` leaves of the workspace `w`. -/
structure Taken (w : Workspace σ R K) (A : Matrix R K) (M : SolveMethod) (t : Workspace σ R K) :
    Prop where
  rest : t = { w with system := t.system }
  krylov : t.system.krylov = w.system.krylov
  last : ∀ x ∈ t.system.last, x ∈ w.system.last
  ready : t.system.Ready A M

section Factorize

variable {B : Backend σ R K} {w : Workspace σ R K}

omit [Entry R K] in
theorem factorizeDense_ends (hfree : ¬A.IsFree) (hmethod : w.system.method = some .lu)
    (hmatrix : w.system.matrix = some A) :
    (factorizeDense B A).Ends w (fun _ t => Taken w A .lu t) (fun e _ => ∀ f, e ≠ .fault f) := by
  obtain ⟨D, hD, hdense⟩ := concrete_eq hfree
  simp only [factorizeDense, ends_bind, ends_ofFault_ok hD]
  split
  · simp
  · exact ⟨rfl, rfl, fun _ hx => hx, hmethod, hmatrix, fun _ => ⟨D, hdense, rfl⟩, by simp, by simp⟩

/-- A sparse factorisation takes square matrices only. -/
theorem factorizeSparse_ends (hA : A.Fits P h n) (hfree : ¬A.IsFree)
    (hmethod : w.system.method = some .splu) (hmatrix : w.system.matrix = some A) :
    (factorizeSparse B A).Ends w (fun _ t => Taken w A .splu t)
      (fun e _ => ∀ f, e = .fault f → f = .unfitSystem ∧ A.isSquare = false) := by
  obtain ⟨D, -, hdense⟩ := concrete_eq hfree
  have hfits : D.Fits P h n := hA.toDense? hdense
  have hshape : D.isSquare = A.isSquare := by
    rw [Grid.isSquare, Matrix.isSquare, hfits.height, hfits.cols, hA.sizes.1, hA.sizes.2]
  simp only [factorizeSparse, hdense, hshape]
  split
  next hnonsquare =>
    intro f hf
    cases hf
    exact ⟨rfl, by simpa using hnonsquare⟩
  next hissquare =>
    split
    · simp
    · exact ⟨rfl, rfl, fun _ hx => hx, hmethod, hmatrix, by simp,
        fun _ => ⟨by simpa using hissquare, D, hdense, rfl⟩, by simp⟩

/-- A matrix that is taken is ready for solves. The only fault is that of a sparse factorisation of
a matrix that is not square. -/
theorem factorize_ends (hs : s₀.Continues P n square free w.system) (hA : A.Fits P h n)
    (hsquare : square ↔ h = n) (hAfree : A.IsFree ↔ free) (hfree : free → square) :
    (factorize B A).Ends w
      (fun _ t => t = { w with system := t.system } ∧ s₀.Continues P n square free t.system ∧
        ∃ M, t.system.Ready A M)
      (fun e _ => ∀ f, e = .fault f → s₀.Escapes square complex finite f) := by
  obtain ⟨hpicks, hproducts⟩ := hs.picks_getD hA hsquare hAfree hfree
  unfold factorize
  simp only [ends_bind, ends_get, change, ends_modify]
  generalize hM : w.system.method.getD (SolveMethod.forMatrix A) = M at hpicks hproducts
  have hnot : M ≠ .gmres → ¬A.IsFree := fun hne hf => hne (hproducts (hAfree.1 hf))
  have htaken : ∀ t, Taken { w with system :=
      { w.system with method := some M, matrix := some A, factors := none } } A M t →
      t = { w with system := t.system } ∧ s₀.Continues P n square free t.system ∧
        ∃ M, t.system.Ready A M := fun t ht =>
    ⟨ht.rest, hs.takes hpicks hproducts ht.krylov ht.ready.method ht.last, M, ht.ready⟩
  cases M with
  | lu =>
    exact (factorizeDense_ends (hnot (by decide)) rfl rfl).mono (fun _ t ht => htaken t ht)
      (fun _ _ he f hf => (he f hf).elim)
  | splu =>
    apply (factorizeSparse_ends hA (hnot (by decide)) rfl rfl).mono (fun _ t ht => htaken t ht)
    intro e t he f hf
    obtain ⟨rfl, hnonsquare⟩ := he f hf
    have hne : ¬square := by
      intro hsq
      rw [hA.isSquare.2 (hsquare.1 hsq)] at hnonsquare
      cases hnonsquare
    exact .unfit (.inl (hpicks.chosen (by decide) hne)) hne
  | gmres =>
    exact htaken _ ⟨rfl, rfl, fun x hx => (Option.mem_filter_iff.1 hx).1, rfl, rfl, by simp,
      by simp, by simp⟩
  | lstsq =>
    obtain ⟨D, hD, hdense⟩ := concrete_eq (hnot (by decide))
    simp only [ends_bind, ends_ofFault_ok hD]
    exact htaken _ ⟨rfl, rfl, fun _ hx => hx, rfl, rfl, by simp, by simp, fun _ => ⟨D, hdense, rfl⟩⟩

omit [Entry R K] in
theorem ready_of_prepares {s : LinearSystem R K} {factors : Option (Factors K)}
    (h : B.Prepares A M factors) (hmethod : s.method = some M) (hmatrix : s.matrix = some A)
    (hfactors : s.factors = factors) : s.Ready A M := by
  refine ⟨hmethod, hmatrix, ?_, ?_, ?_⟩
  all_goals
    rw [hfactors]
    rintro rfl
  · cases h with
    | lu D dense => exact ⟨D, toDense?_of_concrete dense, rfl⟩
  · cases h with
    | splu D dense square => exact ⟨isSquare_of_toDense? dense ▸ square, D, dense, rfl⟩
  · cases h with
    | lstsq D dense => exact ⟨D, toDense?_of_concrete dense, rfl⟩

omit [Entry R K] in
/-- A factorisation that returns leaves its matrix ready for solves, whatever its shape. -/
theorem factorize_ready (B : Backend σ R K) (A : Matrix R K) (w : Workspace σ R K) :
    (factorize B A).Ends w
      (fun _ t => t.system.Ready A (w.system.method.getD (SolveMethod.forMatrix A)))
      (fun _ _ => True) := by
  refine (factorize_spec B A w).mono (fun _ t ht => ?_) fun _ _ _ => trivial
  obtain ⟨factors, hprepares, rfl⟩ := ht
  obtain ⟨hmatrix, hfactors⟩ := factorized_holds w.system A _ factors
  exact ready_of_prepares hprepares (factorized_method _ _ _ _) hmatrix hfactors

end Factorize

/-! ## Solving -/

omit [Scalar R] in
theorem Continues.of_eq {s t : LinearSystem R K} (hs : s₀.Continues P n square free s)
    (hkrylov : t.krylov = s.krylov) (hmethod : t.method = s.method)
    (hlast : ∀ x ∈ t.last, x.Fits P n) : s₀.Continues P n square free t where
  krylov := hkrylov.trans hs.krylov
  unchosen h := hs.unchosen (hmethod.symm.trans h)
  picks h := hs.picks (hmethod.symm.trans h)
  products hf h := hs.products hf (hmethod.symm.trans h)
  last := hlast

omit [Scalar R] [Entry R K] in
theorem Ready.of_eq {s t : LinearSystem R K} (hs : s.Ready A M) (hmethod : t.method = s.method)
    (hmatrix : t.matrix = s.matrix) (hfactors : t.factors = s.factors) : t.Ready A M where
  method := hmethod.trans hs.method
  matrix := hmatrix.trans hs.matrix
  lu h := by rw [hfactors]; exact hs.lu h
  splu h := by rw [hfactors]; exact hs.splu h
  lstsq h := by rw [hfactors]; exact hs.lstsq h

section Solve

variable {B : Backend σ R K} {F : Vec K → Work σ R K (Vec K)} {b : Vec K}

/-- The faults of the iterative method. -/
theorem solveIteratively_safe (hP : Entry.Closed P) (hB : B.Fits P) (hn : 0 < n)
    (hs : s₀.Continues P n square free s) (hgmres : s₀.Picks square .gmres)
    (hA : A.Fits P h n) (hsquare : square ↔ h = n) (hb : b.Fits P h)
    {I : Workspace σ R K → Prop} (hI : ∀ w warnings, I w → I { w with warnings })
    (hF : A.IsFree → Difference.Field.Fits I P n h F) :
    Safe I (Vec.Fits P n) (s₀.Escapes square complex finite) (solveIteratively B F A s b) := by
  unfold solveIteratively
  by_cases hshape : h = n
  · subst hshape
    have hfits : ¬(!A.isSquare || b.size ≠ A.height) = true := by
      rw [hA.isSquare.2 rfl, hb.size, hA.sizes.1]
      simp
    rw [if_neg hfits]
    -- a complex matrix or right-hand side shows that the kind holds complex entries
    have hexists : (A.isReal && b.isReal) = false → ∃ x, P x ∧ Entry.isReal x = false := by
      intro hreal
      rcases Bool.and_eq_false_iff.1 hreal with hreal | hreal
      · exact hA.exists_not_isReal hreal
      · exact hb.exists_not_isReal hreal
    have hside : (if (A.isReal && b.isReal) = true then b else b.widen).Fits P h := by
      split
      · exact hb
      next hreal => exact hb.widen hP (hexists (by simpa using hreal))
    have hstart : ∀ x ∈ s.last.map fun x : Vec K =>
        if (A.isReal && b.isReal) = true then x.realPart else x.widen, x.Fits P h := by
      intro x hx
      obtain ⟨y, hy, rfl⟩ := Option.map_eq_some_iff.1 hx
      split
      · exact (hs.last y hy).realPart hP
      next hreal => exact (hs.last y hy).widen hP (hexists (by simpa using hreal))
    have hproducts : ∀ v : Vec K, v.Fits P h → Safe I (Vec.Fits P h) NoFault (A.apply F v) :=
      fun v hv => Matrix.apply_safe hP hF hA hv
    refine Safe.bind ((hB.gmres (s := s.krylov) hn hproducts hside hstart).mono (fun _ hx => hx)
      fun f hf => ?_) fun r hr => ?_
    · rcases hf with ⟨rfl, hlimit⟩
      rw [hs.krylov] at hlimit
      exact .noIteration hlimit
    · rcases r with ⟨x, outcome⟩
      cases outcome with
      | converged => exact safe_pure hr
      | stopped k => exact (safe_modify fun w hw => hI w _ hw).bind fun _ _ => safe_pure hr
  · have hne : ¬square := fun hsq => hshape (hsquare.1 hsq)
    have hunfit : (!A.isSquare || b.size ≠ A.height) = true := by
      have hnot : A.isSquare = false := Bool.eq_false_iff.2 fun h' => hshape (hA.isSquare.1 h')
      rw [hnot]
      rfl
    rw [if_pos hunfit]
    exact Safe.bind (safe_throw (.unfit (.inr (hgmres.chosen (by decide) hne)) hne))
      fun _ (h : False) => h.elim

section Kept

variable {D : Dense K} {I : Workspace σ R K → Prop}

omit [Scalar R] [Entry R K] in
/-- Dense factors solve for as many unknowns as equations. -/
theorem solveDense_safe (hB : B.Fits P) (hD : D.Fits P h n) (hb : b.Fits P h) :
    Safe I (Vec.Fits P n) (fun f => f = .notSquareFactors ∧ h ≠ n)
      (ofFault (solveDense B (some (.lu D)) b) : Work σ R K (Vec K)) := by
  have hsize : ¬b.size ≠ D.height := not_not_intro (hb.size.trans hD.height.symm)
  simp only [solveDense, if_neg hsize]
  by_cases hshape : h = n
  · subst hshape
    have hissquare : ¬(!D.isSquare) = true := by simp [Grid.isSquare, hD.height, hD.cols]
    rw [if_neg hissquare]
    exact safe_pure (hB.luSolve hD hb)
  · have hnonsquare : (!D.isSquare) = true := by
      simp [Grid.isSquare, hD.height, hD.cols, hshape]
    rw [if_pos hnonsquare]
    exact safe_throw ⟨rfl, hshape⟩

/-- Sparse factors that are real take no complex right-hand side. -/
theorem solveSparse_safe (hB : B.Fits P) (hD : D.Fits P h h) (hb : b.Fits P h) :
    Safe I (Vec.Fits P h) (fun f => f = .complexValue ∧ b.isReal = false)
      (ofFault (solveSparse B (some (.splu D)) b) : Work σ R K (Vec K)) := by
  have hsize : ¬b.size ≠ D.height := not_not_intro (hb.size.trans hD.height.symm)
  simp only [solveSparse, if_neg hsize]
  split
  next hmixed =>
    simp only [Bool.and_eq_true, Bool.not_eq_true'] at hmixed
    exact safe_throw ⟨rfl, hmixed.2⟩
  next => exact safe_pure (hB.sparseSolve hD hb)

theorem solveLeastSquares_safe (hB : B.Fits P) (hD : D.Fits P h n) (hb : b.Fits P h) :
    Safe I (Vec.Fits P n)
      (fun f => f = .nonfiniteSystem ∧ ¬(Dense.isFinite D = true ∧ b.isFinite = true))
      (ofFault (solveLeastSquares B (some (.lstsq D)) b) : Work σ R K (Vec K)) := by
  have hsize : ¬b.size ≠ D.height := not_not_intro (hb.size.trans hD.height.symm)
  simp only [solveLeastSquares, if_neg hsize]
  split
  next hnonfinite =>
    refine safe_throw ⟨rfl, fun hall => ?_⟩
    rw [hall.1, hall.2] at hnonfinite
    cases hnonfinite
  next => exact safe_pure (hB.leastSquares hD hb)

end Kept

/-- The faults of a solve by any method. -/
theorem solveBy_safe (hP : Entry.Closed P) (hB : B.Fits P) (hn : 0 < n)
    (hs : s₀.Continues P n square free s) (hready : s.Ready A M) (hA : A.Fits P h n)
    (hsquare : square ↔ h = n) (hb : b.Fits P h)
    (hcomplex : (∃ x, P x ∧ Entry.isReal x = false) → complex)
    (hfinite : finite → (∀ D, A.toDense? = some D → Dense.isFinite D = true) ∧ b.isFinite = true)
    {I : Workspace σ R K → Prop} (hI : ∀ w warnings, I w → I { w with warnings })
    (hF : A.IsFree → Difference.Field.Fits I P n h F) :
    Safe I (Vec.Fits P n) (s₀.Escapes square complex finite) (solveBy B F A s b M) := by
  have hpicks := hs.picks hready.method
  cases M with
  | lu =>
    obtain ⟨D, hdense, hfactors⟩ := hready.lu rfl
    rw [solveBy, hfactors]
    apply (solveDense_safe hB (hA.toDense? hdense) hb).mono (fun _ hx => hx)
    intro f hf
    rcases hf with ⟨rfl, hshape⟩
    have hne : ¬square := fun hsq => hshape (hsquare.1 hsq)
    exact .notSquare (hpicks.chosen (by decide) hne) hne
  | splu =>
    obtain ⟨hissquare, D, hdense, hfactors⟩ := hready.splu rfl
    have hshape : h = n := hA.isSquare.1 hissquare
    subst hshape
    rw [solveBy, hfactors]
    apply (solveSparse_safe hB (hA.toDense? hdense) hb).mono (fun _ hx => hx)
    intro f hf
    rcases hf with ⟨rfl, hreal⟩
    exact .complexSide hpicks (hcomplex (hb.exists_not_isReal hreal))
  | lstsq =>
    obtain ⟨D, hdense, hfactors⟩ := hready.lstsq rfl
    rw [solveBy, hfactors]
    apply (solveLeastSquares_safe hB (hA.toDense? hdense) hb).mono (fun _ hx => hx)
    intro f hf
    rcases hf with ⟨rfl, hnonfinite⟩
    exact .nonfinite hpicks fun hall => hnonfinite ⟨(hfinite hall).1 D hdense, (hfinite hall).2⟩
  | gmres => exact solveIteratively_safe hP hB hn hs hpicks hA hsquare hb hI hF

/-- A solve answers a vector with an entry for each unknown and leaves the linear system ready, or
it fails, or it ends in one of the faults of a linear system. -/
theorem solve_ends (hP : Entry.Closed P) (hB : B.Fits P) (hn : 0 < n) {w : Workspace σ R K}
    (hs : s₀.Continues P n square free w.system) (hready : w.system.Ready A M)
    (hA : A.Fits P h n) (hsquare : square ↔ h = n) (hb : b.Fits P h)
    (hcomplex : (∃ x, P x ∧ Entry.isReal x = false) → complex)
    (hfinite : finite → (∀ D, A.toDense? = some D → Dense.isFinite D = true) ∧ b.isFinite = true)
    (hF : A.IsFree → ∀ k, Difference.Field.Fits (fun w => w.machinery = k) P n h F) :
    (solve B F b).Ends w
      (fun x t => x.Fits P n ∧ t.jacobian = w.jacobian ∧
        s₀.Continues P n square free t.system ∧ t.system.Ready A M)
      (fun e _ => ∀ f, e = .fault f → s₀.Escapes square complex finite f) := by
  unfold solve
  simp only [ends_bind, ends_get, hready.matrix, hready.method, Option.getD_some]
  simp only [change, ends_modify]
  have hsolve := solveBy_safe hP hB hn hs hready hA hsquare hb hcomplex hfinite
    (I := fun t : Workspace σ R K =>
      t.machinery = (w.jacobian, { w.system with solves := w.system.solves + 1 }))
    (fun _ _ hw => hw) (fun hfree => hF hfree _)
  refine (hsolve _ rfl).mono (fun x t hx => ?_) (fun e t he => he.2)
  rcases hx with ⟨hmachinery, hfits⟩
  obtain ⟨hjacobian, hsystem⟩ := Prod.mk.inj hmachinery
  unfold answer
  split
  · simp
  · simp only [change, ends_bind, ends_modify, ends_pure, hsystem]
    refine ⟨hfits, hjacobian, hs.of_eq rfl rfl fun y hy => ?_, hready.of_eq rfl rfl rfl⟩
    cases hy
    exact hfits

end Solve

end LinearSystem

/-! ## Choices -/

/-- The method that a choice asks for; none if it leaves the method to the matrix. -/
def SystemChoice.asked : SystemChoice R → Option SolveMethod
  | byMatrix => none
  | named name => (SolveMethod.ofName name).toOption
  | configured method _ => method

omit [Entry R K] in
theorem SystemChoice.configured_ok {method : Option SolveMethod} {settings : KrylovSettings R}
    {matrixFree : Bool} (h : (configured method settings).system matrixFree = .ok s₀) :
    s₀ = .fresh method settings ∧ (matrixFree = true → ∀ M, method = some M → M = .gmres) := by
  cases method with
  | none =>
    cases h
    exact ⟨rfl, fun _ M hM => by cases hM⟩
  | some M =>
    cases M with
    | gmres =>
      cases h
      exact ⟨rfl, fun _ M hM => (Option.some.inj hM).symm⟩
    | lu | splu | lstsq =>
      cases matrixFree with
      | true => cases h
      | false =>
        cases h
        exact ⟨rfl, fun hfree => (Bool.false_ne_true hfree).elim⟩

omit [Entry R K] in
/-- A choice has done nothing yet, and only the iterative method takes matrices that are not
formed. -/
theorem SystemChoice.system_ok {choice : SystemChoice R} {matrixFree : Bool}
    (h : choice.system matrixFree = .ok s₀) :
    (∃ krylov, s₀ = .fresh choice.asked krylov) ∧
      (matrixFree = true → ∀ M, s₀.method = some M → M = .gmres) := by
  -- a choice by the matrix or by name is one of the configurations
  have hconfigured : ∃ settings,
      (configured choice.asked settings).system matrixFree = .ok s₀ := by
    cases choice with
    | byMatrix => exact ⟨.standard, h⟩
    | named name =>
      unfold system at h
      dsimp only at h
      rcases hname : SolveMethod.ofName name with f | M
      · rw [hname] at h
        cases h
      · rw [hname] at h
        rw [asked, hname]
        exact ⟨.standard, h⟩
    | configured method settings => exact ⟨settings, h⟩
  obtain ⟨settings, h⟩ := hconfigured
  obtain ⟨rfl, hfree⟩ := configured_ok h
  exact ⟨⟨settings, rfl⟩, hfree⟩

omit [Entry R K] in
/-- A linear system is as it was chosen before its first matrix. -/
theorem SystemChoice.system_continues {choice : SystemChoice R} {matrixFree : Bool}
    (h : choice.system matrixFree = .ok s₀) :
    s₀.Continues P n square (matrixFree = true) s₀ := by
  obtain ⟨⟨krylov, rfl⟩, hproducts⟩ := system_ok h
  refine ⟨rfl, id, .inl, fun hfree hM => hproducts hfree _ hM, fun x hx => ?_⟩
  cases hx

end RootFinding
