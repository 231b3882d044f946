import RootFinding.Proofs.Containment
import RootFinding.Proofs.Prediction
import RootFinding.Proofs.Rollback
import RootFinding.Proofs.Steady
import RootFinding.Proofs.ExactParts
import RootFinding.Proofs.Costs
import RootFinding.Proofs.Elimination

/-!
# Steps on affine problems

For a residual `A u - b` in exact arithmetic, with an exact solver for the linear systems and
without a line search, a step leads from any point to the solution of its linear system, whether its
Jacobian is new or has been kept.

* `Checker.check_converges`, `Checker.check_absolute`: when a check at finite values fails.
* `Options.Tolerates.met`: a residual of zero meets the criterion of every mode.
* `Problem.Realizes`: a problem over a function of numbers and its derivative; `Problem.IsAffine` is
  one over an affine function.
* `LinearSystem.SolvesExactly`: what is asked of the linear solver. The direct methods do so with
  the matrices that they take (`LinearSystem.solvesExactly_of_direct`).
* `Newton.Linear`: the linear system of a step in either form of the equations.
* `Newton.approach_affine`: where a step leads to, from `Newton.At` to `Newton.At`.
-/

open scoped Matrix

namespace RootFinding

open Action Exact

/-! ## Checks -/

namespace Checker

variable {R K : Type} [Scalar R] [Entry R K] {k : Checker R K} {o : Options R K} {fu u : Vec K}

/-- At finite values only a safe mode has failures, and only where the criterion is not met. -/
theorem check_fails (h : k.Follows o) (hfu : fu.isFinite) (hu : u.isFinite) (previous : Vec K) :
    (Checker.check fu u previous).Ends k (fun _ _ => True)
      (fun e _ => ∀ f, e = .failure f → k.isSafe = true ∧ ¬o.Met fu u) := by
  simp only [Checker.check, ends_bind, ends_get, hfu, hu, Bool.and_self, Bool.not_true,
    Bool.false_eq_true, if_false, ends_set]
  split
  · simp [ends_ofFault]
  · simp [ends_ofFault]
  next habs hrel =>
    simp only [ends_bind, ends_ofFault]
    refine ⟨fun bound hbound => ?_, fun _ _ f hf => by cases hf⟩
    have hk : Follows { k with lastFinite := u } o := ⟨h.settings, h.abstol, h.reltol, h.norm⟩
    have hmet := hk.criterion_met hbound (h.settings ▸ habs) (h.settings ▸ hrel)
    rw [← h.norm] at hmet
    split
    next => trivial
    next hnot =>
      split
      next hsafe =>
        rw [ends_bind]
        exact ends_true.mono (fun _ _ _ => trivial)
          fun _ _ _ _ _ => ⟨hsafe, fun h => hnot (hmet.2 h)⟩
      next => trivial

/-- In the modes with a fixed bound a check at finite values fails in the safe mode only. -/
theorem check_absolute (h : k.Follows o) (hmode : o.termination.mode.isRelative = false)
    (hfu : fu.isFinite) (hu : u.isFinite) {previous : Vec K} (hprevious : u.size = previous.size) :
    (Checker.check fu u previous).Ends k (fun _ k' => k'.Follows o)
      (fun e k' => k'.Follows o ∧ k.isSafe = true ∧ ∃ f, e = .failure f) := by
  refine ((check_met previous h).and ((check_fails h hfu hu previous).and
    (check_escapes fu hprevious k))).mono (fun b _ hb => hb.1.1) (fun e _ he => ?_)
  obtain ⟨hfollows, hfails, -, hfaults⟩ := he
  cases e with
  | failure f => exact ⟨hfollows, (hfails f rfl).1, f, rfl⟩
  | fault f =>
    cases hfaults f rfl with
    | misaligned hrelative =>
      rw [h.settings, hmode] at hrelative
      cases hrelative

end Checker

/-! ## Zero residuals -/

/-- The tolerances are not negative, and the norm is zero at zero. -/
structure Options.Tolerates {K : Type} [Entry Exact K] (o : Options Exact K) : Prop where
  abstol : real 0 ≤ o.abstol
  reltol : ∃ ε : ℝ, 0 ≤ ε ∧ o.reltol = real ε
  norm : ∀ v : Vec K, v.isFinite = true → ∃ x : ℝ, 0 ≤ x ∧ o.norm v = real x
  zero : ∀ v : Vec K, v.isZero = true → o.norm v = real 0

section Zero

variable {𝕜 K : Type} [RCLike 𝕜] [Entry Exact K] [ExactEntry 𝕜 K] {n : Nat} {o : Options Exact K}
  {u fu : Vec K} {x : Fin n → 𝕜}

theorem Vec.Reads.isZero (hfu : fu.Reads (0 : Fin n → 𝕜)) : fu.isZero = true := by
  rw [hfu]
  refine List.all_eq_true.2 fun a ha => ?_
  obtain ⟨z, hz, rfl⟩ := List.mem_map.1 ha
  obtain ⟨i, rfl⟩ := List.mem_ofFn.1 hz
  exact (ExactEntry.isZero_iff _).2 rfl

/-- A way is added without a fault: all entries are real, or none is. -/
theorem Vec.Reads.increase {v w : Vec K} {y : Fin n → 𝕜} (hv : v.Reads x) (hw : w.Reads y) :
    ∃ z, v.increase w = .ok z ∧ z.Reads (x + y) := by
  refine ⟨v + w, if_neg fun h => ?_, hv.add hw⟩
  obtain ⟨hreal, hnot⟩ := Bool.and_eq_true_iff.1 h
  have hsize : v.size = w.size := hv.size.trans hw.size.symm
  cases v with
  | nil =>
    cases w with
    | nil => cases hnot
    | cons z w => cases hsize
  | cons a v =>
    have ha := List.all_eq_true.1 hreal a List.mem_cons_self
    have hall : w.isReal = true :=
      List.all_eq_true.2 fun z _ => (ExactEntry.isReal_eq z a).trans ha
    rw [hall] at hnot
    cases hnot

theorem Vec.Reads.zerosLike (hu : u.Reads x) : u.zerosLike.Reads (0 : Fin n → 𝕜) :=
  hu.map (g := fun _ => (0 : 𝕜)) fun _ => ExactEntry.zeroAs _

/-- A residual of zero meets the criterion of every mode, if the relative modes can add it to the
iterate. -/
theorem Options.Tolerates.met {m : Nat} (ho : o.Tolerates) (hfu : fu.Reads (0 : Fin m → 𝕜))
    (hu : u.Reads x) (hsize : o.termination.mode.isRelative = true → m = n) : o.Met fu u := by
  obtain ⟨ε, hε, hreltol⟩ := ho.reltol
  have hnorm : o.norm fu = real 0 := ho.zero fu hfu.isZero
  have hsum : m = n → Vec.align (· + ·) fu u = .ok (fu + u) := fun hmn =>
    Vec.align_of_size (hfu.size.trans (hmn.trans hu.size.symm))
  have hbound : m = n → o.norm fu ≤ o.reltol * o.norm (fu + u) := by
    rintro rfl
    obtain ⟨l, hl, hlength⟩ := ho.norm (fu + u) (hfu.add hu).isFinite
    rw [hnorm, hreltol, hlength, real_mul, real_le]
    exact mul_nonneg hε hl
  unfold Options.Met
  cases hmode : o.termination.mode with
  | abs =>
    intro f hf
    rw [hfu] at hf
    obtain ⟨z, hz, rfl⟩ := List.mem_map.1 hf
    obtain ⟨i, rfl⟩ := List.mem_ofFn.1 hz
    rw [ExactEntry.abs, Pi.zero_apply, norm_zero]
    exact ho.abstol
  | rel =>
    rw [hmode] at hsize
    obtain rfl := hsize rfl
    have hreads : (fu + u).Reads (0 + x) := hfu.add hu
    refine ⟨_, _, hsum rfl, Vec.align_of_size (hfu.size.trans hreads.size.symm), fun b hb => ?_⟩
    change b ∈ List.zipWith _ fu.toList (fu + u).toList at hb
    rw [Vec.reads_iff.1 hfu, Vec.reads_iff.1 hreads, Vec.zipWith_ofFn] at hb
    obtain ⟨i, rfl⟩ := List.mem_ofFn.1 hb
    refine decide_eq_true ?_
    rw [ExactEntry.abs, ExactEntry.abs, Pi.zero_apply, norm_zero, hreltol, real_mul, real_le]
    exact mul_nonneg hε (norm_nonneg _)
  | absNorm | absSafe => exact hnorm ▸ ho.abstol
  | relNorm | relSafe =>
    rw [hmode] at hsize
    exact ⟨_, hsum (hsize rfl), hbound (hsize rfl)⟩

end Zero

/-! ## Affine problems -/

section Problems

variable {σ 𝕜 K : Type} [RCLike 𝕜] [Entry Exact K] [ExactEntry 𝕜 K] {m n : Nat}
  {p : Problem σ Exact K} {A : FieldMatrix 𝕜 m n} {b : Fin m → 𝕜} {v : Vec K} {x : Fin n → 𝕜}

/-- The matrices of numbers have finite entries. -/
theorem Matrix.Reads.isFinite {J : Matrix Exact K} (hJ : J.Reads A) : J.isFinite = true := by
  cases J with
  | dense J => exact Dense.Reads.isFinite hJ
  | sparse J =>
    refine List.all_eq_true.2 fun r hr => List.all_eq_true.2 fun o ho => ?_
    cases o with
    | none => rfl
    | some a =>
      have hrow : r.map (·.getD J.zero) ∈ (Sparse.toDense J).rows := List.mem_map_of_mem hr
      have hentry : a ∈ r.map (·.getD J.zero) := List.mem_map_of_mem (f := (·.getD J.zero)) ho
      exact List.all_eq_true.1 (List.all_eq_true.1 hJ.dense.isFinite _ hrow) a hentry
  | free J => exact hJ.elim

/-- The residual of the problem is the function `F` of numbers, with the Jacobian `D` from the
caller's function. -/
structure Problem.Realizes (p : Problem σ Exact K) (F : (Fin n → 𝕜) → Fin m → 𝕜)
    (D : (Fin n → 𝕜) → FieldMatrix 𝕜 m n) : Prop where
  guess : ∃ x : Fin n → 𝕜, p.guess.entries.Reads x
  residual (v : Vec K) (x : Fin n → 𝕜) (w : Workspace σ Exact K) : v.Reads x →
    ∃ fu, ((p.evaluate v).eval w).1 = .ok fu ∧ fu.Reads (F x)
  jacobian : ∃ jac, p.jacobian = some jac ∧ ∀ t (x : Fin n → 𝕜) w, t.entries.Reads x →
    ∃ J, (jac t w).1 = .ok J ∧ (J.toMatrix : Matrix Exact K).Reads (D x)

/-- The residual of the problem is `A u - b`, with the Jacobian `A` from the caller's function. -/
structure Problem.IsAffine (p : Problem σ Exact K) (A : FieldMatrix 𝕜 m n) (b : Fin m → 𝕜) :
    Prop where
  guess : ∃ x : Fin n → 𝕜, p.guess.entries.Reads x
  residual (v : Vec K) (x : Fin n → 𝕜) (w : Workspace σ Exact K) : v.Reads x →
    ∃ fu, ((p.evaluate v).eval w).1 = .ok fu ∧ fu.Reads (A *ᵥ x - b)
  jacobian : ∃ jac, p.jacobian = some jac ∧ ∀ t (x : Fin n → 𝕜) w, t.entries.Reads x →
    ∃ J, (jac t w).1 = .ok J ∧ (J.toMatrix : Matrix Exact K).Reads A

theorem Problem.IsAffine.realizes (hp : p.IsAffine A b) :
    p.Realizes (fun x => A *ᵥ x - b) fun _ => A :=
  ⟨hp.guess, hp.residual, hp.jacobian⟩

variable {F : (Fin n → 𝕜) → Fin m → 𝕜} {D : (Fin n → 𝕜) → FieldMatrix 𝕜 m n}

theorem Problem.Realizes.evaluate (hp : p.Realizes F D) (hv : v.Reads x)
    (w : Workspace σ Exact K) :
    (p.evaluate v).Ends w (fun fu t => fu.Reads (F x) ∧ t.model = w.model)
      (fun _ _ => False) := by
  obtain ⟨fu, hfu, hreads⟩ := hp.residual v x w hv
  refine ends_iff.2 ⟨fun g t h => ?_, fun e t h => ?_⟩
  · rw [h] at hfu
    cases hfu
    exact ⟨hreads, ((p.evaluate_model v).ends w).ok h⟩
  · rw [h] at hfu
    cases hfu

/-- An iterate of numbers with an answer of the residual reads as the function there. -/
theorem Problem.Realizes.answered (hp : p.Realizes F D) (hv : v.Reads x) {fu : Vec K}
    (h : p.Answered v fu) : fu.Reads (F x) := by
  obtain ⟨w, t, hw⟩ := h
  exact ((hp.evaluate hv w).ok hw).1

theorem Problem.Realizes.restructure (hp : p.Realizes F D) (hv : v.Reads x)
    (w : Workspace σ Exact K) : p.restructure v = .ok ⟨p.guess.shape, v⟩ := by
  obtain ⟨fu, hfu, -⟩ := hp.residual v x w hv
  have hanswered : p.Answered v fu := ⟨w, _, Prod.ext hfu rfl⟩
  exact if_pos hanswered.size_eq

/-- A matrix of numbers with the right sizes can serve as the Jacobian. -/
theorem Matrix.Reads.jacobianDefect {J : Matrix Exact K} (hJ : J.Reads A) :
    Problem.jacobianDefect? J (some m) n = none := by
  have hshape : J.shape = [m, n] := by rw [Matrix.shape, hJ.height, hJ.cols]
  simp [Problem.jacobianDefect?, hshape, hJ.isFinite]

/-- A Jacobian of numbers that the caller's function answers is taken. -/
theorem Problem.jacobianAt_given {jac : Callable σ Exact K (Tensor K) (JacobianValue K)}
    (hjac : p.jacobian = some jac) {t : Tensor K} (ht : p.restructure v = .ok t)
    (hv : v.size = n) {fu : Vec K} (hfu : fu.size = m) {w : Workspace σ Exact K}
    {V : JacobianValue K} (hV : (jac t w.world).1 = .ok V)
    (hJ : (V.toMatrix : Matrix Exact K).Reads A) (s : JacobianSettings Exact) :
    (p.jacobianAt s v (some fu)).Ends w
      (fun J w' => J = V.toMatrix ∧ w'.jacobian = some J ∧ w'.system = w.system)
      (fun _ _ => False) := by
  have hdefect := hJ.jacobianDefect
  simp only [Problem.jacobianAt, rawJacobian, hjac, analyticJacobian, ends_bind, ends_mapError,
    ends_ofFault_ok ht, Workspace.call, ends_ofFun, hV, ends_pure, Option.map_some, hfu, hv]
  refine ⟨fun V' w' h => ?_, fun e w' h => by cases h⟩
  cases h
  rw [hdefect]
  exact ⟨rfl, rfl, rfl⟩

theorem Problem.Realizes.jacobianAt (hp : p.Realizes F D) (hv : v.Reads x) {fu : Vec K}
    (hfu : fu.size = m) (s : JacobianSettings Exact) (w : Workspace σ Exact K) :
    (p.jacobianAt s v (some fu)).Ends w
      (fun J t => J.Reads (D x) ∧ t.jacobian = some J ∧ t.system = w.system)
      (fun _ _ => False) := by
  obtain ⟨jac, hjac, hanswers⟩ := hp.jacobian
  obtain ⟨V, hV, hJ⟩ := hanswers ⟨p.guess.shape, v⟩ x w.world hv
  refine (Problem.jacobianAt_given hjac (hp.restructure hv w) hv.size hfu hV hJ s).mono
    (fun J w' h => ?_) (fun _ _ h => h)
  obtain ⟨rfl, hstored, hsystem⟩ := h
  exact ⟨hJ, hstored, hsystem⟩

end Problems

/-! ## Exact linear systems -/

namespace LinearSystem

section Answers

variable {σ R K : Type} [Scalar R] [Entry R K] {B : Backend σ R K}
  {F : Vec K → Work σ R K (Vec K)} {w w' : Workspace σ R K}

/-- What a direct method answers depends on its factors only. -/
theorem solve_fst_eq {M : SolveMethod} (hM : M.IsDirect) (b : Vec K)
    (hmethod : w.system.method = some M) (hmethod' : w'.system.method = some M)
    (hmatrix : w'.system.matrix = w.system.matrix)
    (hfactors : w'.system.factors = w.system.factors) :
    ((solve B F b).eval w').1 = ((solve B F b).eval w).1 := by
  have hanswer : ∀ (r : Except Fault (Vec K)) (v v' : Workspace σ R K),
      ((Action.ofFault r >>= answer : Work σ R K (Vec K)).eval v').1 =
        ((Action.ofFault r >>= answer : Work σ R K (Vec K)).eval v).1 := by
    intro r v v'
    cases r with
    | error f => rfl
    | ok x =>
      change ((answer x).eval v').1 = ((answer x).eval v).1
      unfold answer
      split <;> rfl
  unfold solve
  rw [eval_bind, eval_bind, eval_get, eval_get]
  simp only [hmatrix, hmethod, hmethod', Option.getD_some]
  cases w.system.matrix with
  | none => rfl
  | some A =>
    cases M with
    | lu =>
      change ((Action.ofFault (solveDense B w'.system.factors b) >>= answer).eval _).1 =
        ((Action.ofFault (solveDense B w.system.factors b) >>= answer).eval _).1
      rw [hfactors]
      exact hanswer _ _ _
    | splu =>
      change ((Action.ofFault (solveSparse B w'.system.factors b) >>= answer).eval _).1 =
        ((Action.ofFault (solveSparse B w.system.factors b) >>= answer).eval _).1
      rw [hfactors]
      exact hanswer _ _ _
    | gmres | lstsq => exact hM.elim
end Answers

variable {σ 𝕜 K : Type} [RCLike 𝕜] [Entry Exact K] [ExactEntry 𝕜 K] {n : Nat}
  {N : FieldMatrix 𝕜 n n} {s₀ s : LinearSystem Exact K} {B : Backend σ Exact K}
  {F : Vec K → Work σ Exact K (Vec K)}

/-- The linear system `s` has the choices of `s₀`, or the method that these leave to the first
matrix, which is one that reads `N`. -/
structure Extends (s₀ : LinearSystem Exact K) (N : FieldMatrix 𝕜 n n) (s : LinearSystem Exact K) :
    Prop where
  krylov : s.krylov = s₀.krylov
  method : s.method = s₀.method ∨ s₀.method = none ∧
    ∃ A : Matrix Exact K, A.Reads N ∧ s.method = some (.forMatrix A)

variable (B F) in
/-- With the choices of `s₀` the matrices that read `N` are factorised, and every solve after that
answers the solution. -/
structure SolvesExactly (s₀ : LinearSystem Exact K) (N : FieldMatrix 𝕜 n n) : Prop where
  factorizes {A : Matrix Exact K} {w : Workspace σ Exact K} : A.Reads N → s₀.Extends N w.system →
    (factorize B A).Ends w (fun _ _ => True) (fun _ _ => False)
  solves {A : Matrix Exact K} {w : Workspace σ Exact K} {b : Vec K} {g : Fin n → 𝕜} : A.Reads N →
    s₀.Extends N w.system → w.system.Factorized B A → b.Reads g →
      (solve B F b).Ends w (fun x _ => ∃ y, x.Reads y ∧ N *ᵥ y = g) (fun _ _ => False)

theorem Extends.refl : s₀.Extends N s₀ := ⟨rfl, .inl rfl⟩

theorem Extends.of_model {w w' : Workspace σ Exact K} (h : s₀.Extends N w.system)
    (hw : w'.model = w.model) : s₀.Extends N w'.system := by
  have hkrylov : w'.system.krylov = w.system.krylov := congrArg (·.2.2.krylov) hw
  have hmethod : w'.system.method = w.system.method := congrArg (·.2.2.method) hw
  exact ⟨hkrylov.trans h.krylov, hmethod ▸ h.method⟩

omit [RCLike 𝕜] [Entry Exact K] [ExactEntry 𝕜 K] in
theorem Factorized.of_model {A : Matrix Exact K} {w w' : Workspace σ Exact K}
    (h : w.system.Factorized B A) (hw : w'.model = w.model) : w'.system.Factorized B A := by
  obtain ⟨v, v', hv, hmethod, hmatrix, hfactors⟩ := h
  exact ⟨v, v', hv, (congrArg (·.2.2.method) hw).trans hmethod,
    (congrArg (·.2.2.matrix) hw).trans hmatrix, (congrArg (·.2.2.factors) hw).trans hfactors⟩

/-- A factorisation that succeeds keeps the choices. -/
theorem Extends.factorize {A : Matrix Exact K} {w w' : Workspace σ Exact K}
    (h : s₀.Extends N w.system) (hA : A.Reads N)
    (hw : (LinearSystem.factorize B A).eval w = (.ok (), w')) : s₀.Extends N w'.system := by
  obtain ⟨factors, -, rfl⟩ := (factorize_spec B A w).ok hw
  have hkrylov : (w.system.factorized A (w.system.method.getD (.forMatrix A)) factors).krylov =
      w.system.krylov := by
    cases w.system.method.getD (.forMatrix A) <;> rfl
  refine ⟨hkrylov.trans h.krylov, ?_⟩
  rw [factorized_method]
  rcases h.method with hmethod | ⟨hnone, A', hA', hmethod⟩
  · rw [hmethod]
    cases hs₀ : s₀.method with
    | none => exact .inr ⟨rfl, A, hA, rfl⟩
    | some M => exact .inl rfl
  · rw [hmethod]
    exact .inr ⟨hnone, A', hA', rfl⟩

/-- A backend takes the matrices that read `N` by either direct method. -/
structure Accepts (B : Backend σ Exact K) (N : FieldMatrix 𝕜 n n) : Prop where
  lu {D : Dense K} : D.Reads N → singularDetails? (B.pivots D) D.height = none
  splu {D : Dense K} : D.Reads N → B.sparseSingular D = false

/-- A direct method factorises the matrices that it takes. -/
theorem Accepts.factorizes (h : Accepts B N) {A : Matrix Exact K} (hA : A.Reads N)
    {w : Workspace σ Exact K}
    (hmethod : (w.system.method.getD (SolveMethod.forMatrix A)).IsDirect) :
    (factorize B A).Ends w (fun _ _ => True) (fun _ _ => False) := by
  obtain ⟨D, hD, hconcrete, hdense⟩ := hA.concrete
  have hsquare : D.isSquare = true := by simp [Grid.isSquare, hD.height, hD.cols]
  rw [factorize, ends_bind, ends_get, ends_bind, change, ends_modify]
  cases hM : w.system.method.getD (SolveMethod.forMatrix A) with
  | lu => simp [factorizeDense, hconcrete, h.lu hD, keep, change]
  | splu => simp [factorizeSparse, hdense, hsquare, h.splu hD, keep, change]
  | gmres | lstsq =>
    rw [hM] at hmethod
    exact hmethod.elim

/-- The method of a system is direct that extends one without an iterative method. -/
theorem Extends.isDirect (h : s₀.Extends N s) (hmethod : ∀ M, s₀.method = some M → M.IsDirect)
    {M : SolveMethod} (hM : s.method = some M) : M.IsDirect := by
  rcases h.method with hsame | ⟨-, A, hA, hnew⟩
  · exact hmethod M (hsame.symm.trans hM)
  · rw [Option.some.inj (hM.symm.trans hnew)]
    exact hA.forMatrix_isDirect

/-- After a direct factorisation every solve answers the solution. -/
theorem Factorized.solves {A : Matrix Exact K} {w : Workspace σ Exact K}
    (h : w.system.Factorized B A) (hB : B.Eliminates 𝕜) (hA : A.Reads N) {M : SolveMethod}
    (hmethod : w.system.method = some M) (hM : M.IsDirect) {b : Vec K} {g : Fin n → 𝕜}
    (hb : b.Reads g) :
    (solve B F b).Ends w (fun x _ => ∃ y, x.Reads y ∧ N *ᵥ y = g) (fun _ _ => False) := by
  obtain ⟨v, v', hv, hmethod', hmatrix, hfactors⟩ := h
  have hsame := hmethod'.symm.trans hmethod
  have hchosen : some (v.system.method.getD (.forMatrix A)) = some M :=
    ((factorize_ready B A v).ok hv).method.symm.trans hsame
  have hdirect : (v.system.method.getD (.forMatrix A)).IsDirect := Option.some.inj hchosen ▸ hM
  obtain ⟨x, t, hx, hreads⟩ := ((eliminates hB hA hb F hdirect).ok hv).exists_ok
  have hanswer := solve_fst_eq (B := B) (F := F) hM b hsame hmethod hmatrix hfactors
  rw [hx] at hanswer
  refine ends_iff.2 ⟨fun y s hy => ?_, fun e s he => ?_⟩
  · rw [hy] at hanswer
    cases hanswer
    exact hreads
  · rw [he] at hanswer
    cases hanswer

end LinearSystem

/-! ## Whole steps -/

namespace Newton

variable {σ 𝕜 K : Type} [RCLike 𝕜] [Entry Exact K] [ExactEntry 𝕜 K] {m n : Nat}
  {a : Newton σ Exact K} {c : Setup σ Exact K} {A : FieldMatrix 𝕜 m n} {b : Fin m → 𝕜}
  {N : FieldMatrix 𝕜 n n} {g x y : Fin n → 𝕜} {s₀ : LinearSystem Exact K}
  {r s t : Run σ Exact K (State σ Exact K)}

/-- The settings are accepted, and there is no line search. -/
structure Whole {R : Type} [Scalar R] (a : Newton σ R K) (s₀ : LinearSystem R K) : Prop where
  scheme : ∃ s, Scheme.ofName a.scheme = .ok s
  search : ∃ s, a.validate = .ok s ∧ s.method = .none
  system : a.choice.system false = .ok s₀

/-- The step from `x` solves the linear system with the matrix `N` and the right-hand side
`N x - g`. -/
structure Linear (a : Newton σ Exact K) (A : FieldMatrix 𝕜 m n) (b : Fin m → 𝕜)
    (N : FieldMatrix 𝕜 n n) (g : Fin n → 𝕜) : Prop where
  matrix {J : Matrix Exact K} : J.Reads A → (a.systemMatrix J).Reads N
  side {J : Matrix Exact K} {fu : Vec K} {x : Fin n → 𝕜} : J.Reads A → fu.Reads (A *ᵥ x - b) →
    ∃ h, a.rightSide (some J) fu = .ok h ∧ h.Reads (N *ᵥ x - g)

/-- The stored Jacobian is `A`, and the linear system has its factors. -/
structure Made (a : Newton σ Exact K) (c : Setup σ Exact K) (A : FieldMatrix 𝕜 m n)
    (w : Workspace σ Exact K) (J : Matrix Exact K) : Prop where
  stored : w.jacobian = some J
  reads : J.Reads A
  factorized : w.system.Factorized c.backend (a.systemMatrix J)

/-- Between its steps a run is at `x`, with no Jacobian yet or with `A`. -/
structure At (a : Newton σ Exact K) (c : Setup σ Exact K) (A : FieldMatrix 𝕜 m n)
    (b : Fin m → 𝕜) (N : FieldMatrix 𝕜 n n) (s₀ : LinearSystem Exact K) (x : Fin n → 𝕜)
    (r : Run σ Exact K (State σ Exact K)) : Prop where
  u : r.u.Reads x
  fu : r.fu.Reads (A *ᵥ x - b)
  search : r.ext.search.method = .none
  way : ∃ z : Fin n → 𝕜, r.ext.way.Reads z
  system : s₀.Extends N r.work.system
  model : r.work.jacobian = none ∨ ∃ J, a.Made c A r.work J

omit [RCLike 𝕜] [ExactEntry 𝕜 K] in
theorem Made.of_model [RCLike 𝕜] [ExactEntry 𝕜 K] {A : FieldMatrix 𝕜 m n}
    {w w' : Workspace σ Exact K} {J : Matrix Exact K} (h : a.Made c A w J)
    (hw : w'.model = w.model) : a.Made c A w' J :=
  ⟨(congrArg (·.1) hw).trans h.stored, h.reads, h.factorized.of_model hw⟩

section Steps

variable (hp : c.problem.IsAffine A b) (hB : c.backend.Frames)
  (hsolves : s₀.SolvesExactly c.backend c.problem.evaluate N) (hlinear : a.Linear A b N g)

include hp hsolves hlinear in
/-- A step gets its Jacobian, whether it has been made or not. -/
theorem renew_affine (hr : At a c A b N s₀ x r) :
    (a.renew c).Ends r (fun _ s => At a c A b N s₀ x s ∧ ∃ J, a.Made c A s.work J)
      (fun _ _ => False) := by
  simp only [renew, ends_bind, ends_get]
  split
  next =>
    simp only [ends_bind, Run.ends_onWork, Run.ends_update]
    refine (hp.realizes.jacobianAt hr.u hr.fu.size _ _).mono (fun J w hJ => ?_) (fun _ _ h => h)
    obtain ⟨hreads, hstored, hsystem⟩ := hJ
    have hextends : s₀.Extends N w.system := hsystem ▸ hr.system
    have hfactorizes := hsolves.factorizes (hlinear.matrix hreads) hextends
    refine ends_iff.2 ⟨fun _ w' hw' => ?_, fun e w' hw' => hfactorizes.error hw'⟩
    have hkept : (w'.jacobian, w'.jacobians) = (w.jacobian, w.jacobians) :=
      ((LinearSystem.factorize_jacobians c.backend _).ends w).ok hw'
    have hmade : a.Made c A w' J :=
      ⟨(congrArg (·.1) hkept).trans hstored, hreads, w, w', hw', rfl, rfl, rfl⟩
    exact ⟨⟨hr.u, hr.fu, hr.search, ⟨0, hr.u.zerosLike⟩,
      hextends.factorize (hlinear.matrix hreads) hw', .inr ⟨J, hmade⟩⟩, J, hmade⟩
  next hkept =>
    rw [Run.ends_update]
    refine ⟨⟨hr.u, hr.fu, hr.search, hr.way, hr.system, hr.model⟩, ?_⟩
    rcases hr.model with hnone | hmade
    · simp [JacobianSettings.needsRebuild, hnone] at hkept
    · exact hmade

include hB hsolves hlinear in
/-- The direction of a step leads from the solution of the system to the iterate. -/
theorem direction_affine (hy : N *ᵥ y = g) (hN : IsUnit N.det) (hr : At a c A b N s₀ x r)
    (hmade : ∃ J, a.Made c A r.work J) :
    (a.direction c).Ends r
      (fun d t => d.Reads (x - y) ∧ t = { r with work := t.work } ∧ t.work.model = r.work.model)
      (fun _ _ => False) := by
  obtain ⟨J, hJ⟩ := hmade
  obtain ⟨h, hh, hreads⟩ := hlinear.side hJ.reads hr.fu
  have hsolve := (hsolves.solves (hlinear.matrix hJ.reads) hr.system hJ.factorized hreads).and
    ((LinearSystem.solve_model hB h).ends r.work)
  simp only [direction, ends_bind, ends_get, hJ.stored, ends_ofFault_ok hh, Run.ends_onWork]
  refine hsolve.mono (fun d w hd => ?_) (fun _ _ h => h.1)
  obtain ⟨⟨z, hz, hsolved⟩, hmodel⟩ := hd
  have hsame : z = x - y := by
    refine Matrix.mulVec_injective_of_isUnit ((Matrix.isUnit_iff_isUnit_det N).2 hN) ?_
    rw [hsolved, Matrix.mulVec_sub, hy]
  exact ⟨hsame ▸ hz, trivial, hmodel⟩

include hp hB hsolves hlinear in
/-- A step leads from any point to the solution of the system. -/
theorem approach_affine (hy : N *ᵥ y = g) (hN : IsUnit N.det) (hr : At a c A b N s₀ x r) :
    (a.approach c).Ends r (fun _ t => At a c A b N s₀ y t ∧ t.previous.size = n)
      (fun _ _ => False) := by
  rw [approach, ends_bind]
  refine (renew_affine hp hsolves hlinear hr).mono (fun _ s hs => ?_) (fun _ _ h => h)
  obtain ⟨hs, hmade⟩ := hs
  rw [ends_bind]
  refine (direction_affine hB hsolves hlinear hy hN hs hmade).mono (fun d t ht => ?_)
    (fun _ _ h => h)
  obtain ⟨hd, heq, hmodel⟩ := ht
  obtain ⟨w, rfl⟩ : ∃ w, t = { s with work := w } := ⟨_, heq⟩
  have hu : (s.u - (1.0 : Exact) • d).Reads y := by
    have hone : (1.0 : Exact) = real 1 := by norm_num
    have h := hs.u.sub (hd.smul 1)
    rw [← hone] at h
    convert h using 1
    funext i
    simp
  simp only [advance, ends_bind, ends_get, Run.ends_onWork, LineSearch.search_none hs.search,
    ends_pure, ends_modify, Run.ends_evaluate, Run.ends_moveTo]
  refine (hp.realizes.evaluate hu w).mono (fun fu w' hw' => ?_) (fun _ _ h => h)
  obtain ⟨hfu, hmodel'⟩ := hw'
  obtain ⟨z, hz⟩ := hs.way
  obtain ⟨way, hway, hreads⟩ := hz.increase (hu.sub hs.u)
  have hkept := hmodel'.trans hmodel
  refine (ends_ofFault_ok hway).2
    (Run.ends_update.2 ⟨⟨hu, hfu, hs.search, ⟨_, hreads⟩, hs.system.of_model hkept, ?_⟩,
      hs.u.size⟩)
  exact hs.model.imp (fun hnone => (congrArg (·.1) hkept).trans hnone)
    fun hmade => hmade.imp fun J hJ => hJ.of_model hkept

end Steps

end Newton

end RootFinding
