import RootFinding.Proofs.AffineSolves
import RootFinding.Proofs.ZeroTolerance

/-!
# The handle of a linear system

What a linear system can still be asked after any calls of it, over any scalars. A call of
`factorize` that fails has stored its matrix already, so the handle tells a missing factorisation
only before the first matrix; afterwards a solve looks for factors that are not there.

* `LinearSystem.History B log w`: in `w` the linear system has been through the calls of `log`, the
  last one first. `lastGiven log` is the matrix of the last call of `factorize`, with its outcome.
* `LinearSystem.Handle B s given`: what the linear system holds after the call of `factorize` in
  `given`, by `factorize_spec`. `History.handle` is the induction, and `Handle.solve` says what a solve does then.
* `Newton.singular_strands`: a Newton run with reuse after a first Jacobian that is singular.
-/

open scoped Matrix

namespace RootFinding

open Action

variable {σ R K : Type} [Scalar R] [Entry R K] {B : Backend σ R K} {A : Matrix R K}
  {M : SolveMethod} {e : Thrown R K} {factors : Option (Factors K)}

/-! ## Methods -/

namespace Backend

omit [Entry R K] in
/-- Only the direct methods find a matrix singular, and they say so. -/
theorem Declines.failure {f : Failure R K} (h : B.Declines A M (.failure f)) :
    f.kind = .singularSystem ∧ M.IsDirect := by
  cases h with
  | dense _ _ _ _ _ kind => exact ⟨kind, trivial⟩
  | sparse _ _ _ _ kind => exact ⟨kind, trivial⟩

/-- What the methods of a backend answer for the matrices that they take: `P M A b x` says that the
vector `x` solves the system with the matrix `A` and the right-hand side `b` in the sense of the
method `M`. -/
structure Solves (B : Backend σ R K) (P : SolveMethod → Matrix R K → Vec K → Vec K → Prop) :
    Prop where
  lu {A : Matrix R K} {D : Dense K} {b : Vec K} : B.Prepares A .lu (some (.lu D)) →
    D.isSquare = true → b.size = D.height → P .lu A b (B.luSolve D b)
  splu {A : Matrix R K} {D : Dense K} {b : Vec K} : B.Prepares A .splu (some (.splu D)) →
    b.size = D.height → P .splu A b (B.sparseSolve D b)
  lstsq {A : Matrix R K} {D : Dense K} {b : Vec K} : B.Prepares A .lstsq (some (.lstsq D)) →
    b.size = D.height → P .lstsq A b (B.leastSquares D b)
  gmres {A : Matrix R K} {b side : Vec K} {F : Vec K → Work σ R K (Vec K)}
    {krylov : KrylovSettings R} {start : Option (Vec K)} {w : Workspace σ R K} :
    A.isSquare = true → b.size = A.height →
    side = (if A.isReal && b.isReal then b else b.widen) →
      (B.gmres (A.apply F) krylov side start).Ends w (fun r _ => P .gmres A b r.1)
        (fun _ _ => True)

end Backend

namespace LinearSystem

/-! ## Histories -/

/-- A call of a linear system, with how it ended. -/
inductive Call (R K : Type) where
  | factorize (A : Matrix R K) (outcome : Except (Thrown R K) Unit)
  | solve (b : Vec K) (outcome : Except (Thrown R K) (Vec K))

/-- The matrix that was given last, with the outcome of its factorisation. -/
def lastGiven : List (Call R K) → Option (Matrix R K × Except (Thrown R K) Unit)
  | [] => none
  | .factorize A outcome :: _ => some (A, outcome)
  | .solve _ _ :: log => lastGiven log

/-- In the last argument a linear system has been through the calls of the log, the last one first.
Between the calls the rest of the workspace may change. -/
inductive History (B : Backend σ R K) : List (Call R K) → Workspace σ R K → Prop
  | fresh {w : Workspace σ R K} (method : Option SolveMethod) (krylov : KrylovSettings R)
    (system : w.system = .fresh method krylov) : History B [] w
  | elsewhere {log : List (Call R K)} {w t : Workspace σ R K} (before : History B log w)
    (system : t.system = w.system) : History B log t
  | factorize {log : List (Call R K)} {w t : Workspace σ R K} {A : Matrix R K}
    {outcome : Except (Thrown R K) Unit} (before : History B log w)
    (call : (LinearSystem.factorize B A).eval w = (outcome, t)) :
    History B (.factorize A outcome :: log) t
  | solve {log : List (Call R K)} {w t : Workspace σ R K} {F : Vec K → Work σ R K (Vec K)}
    {b : Vec K} {outcome : Except (Thrown R K) (Vec K)} (before : History B log w)
    (products : ∀ v, Keeps Workspace.system (F v))
    (call : (LinearSystem.solve B F b).eval w = (outcome, t)) :
    History B (.solve b outcome :: log) t

/-- What the linear system holds after the last call of `factorize`, by its outcome. -/
inductive Handle (B : Backend σ R K) (s : LinearSystem R K) :
    Option (Matrix R K × Except (Thrown R K) Unit) → Prop
  | empty (matrix : s.matrix = none) : Handle B s none
  | prepared {A : Matrix R K} {M : SolveMethod} (method : s.method = some M)
    (matrix : s.matrix = some A) (factors : B.Prepares A M s.factors) :
    Handle B s (some (A, .ok ()))
  | declined {A : Matrix R K} {M : SolveMethod} {e : Thrown R K} (method : s.method = some M)
    (matrix : s.matrix = some A) (factors : s.factors = none) (cause : B.Declines A M e) :
    Handle B s (some (A, .error e))

section Handles

variable {s t : LinearSystem R K} {given : Option (Matrix R K × Except (Thrown R K) Unit)}
  {w : Workspace σ R K} {log : List (Call R K)}

omit [Entry R K] in
theorem Handle.of_eq (h : Handle B s given) (hmethod : t.method = s.method)
    (hmatrix : t.matrix = s.matrix) (hfactors : t.factors = s.factors) : Handle B t given := by
  cases h with
  | empty matrix => exact .empty (hmatrix.trans matrix)
  | prepared method matrix factors =>
    exact .prepared (hmethod.trans method) (hmatrix.trans matrix) (hfactors ▸ factors)
  | declined method matrix factors cause =>
    exact .declined (hmethod.trans method) (hmatrix.trans matrix) (hfactors.trans factors) cause

omit [Entry R K] in
/-- A call of `factorize` leaves the handle as its outcome says, whatever it was before. -/
theorem handle_of_factorize {outcome : Except (Thrown R K) Unit} {v : Workspace σ R K}
    (h : (factorize B A).eval w = (outcome, v)) : Handle B v.system (some (A, outcome)) := by
  cases outcome with
  | ok =>
    obtain ⟨factors, hfactors, rfl⟩ := (factorize_spec B A w).ok h
    obtain ⟨hmatrix, heq⟩ := factorized_holds w.system A (w.system.method.getD (.forMatrix A)) factors
    exact .prepared (factorized_method _ _ _ _) hmatrix (heq.symm ▸ hfactors)
  | error e =>
    obtain ⟨hcause, rfl⟩ := (factorize_spec B A w).error h
    exact .declined rfl rfl rfl hcause

/-- The handle after any calls is as the last call of `factorize` has left it. -/
theorem History.handle (hB : B.Frames) (h : History B log w) :
    Handle B w.system (lastGiven log) := by
  induction h with
  | fresh method krylov system => exact .empty (by rw [system]; rfl)
  | elsewhere before system ih => exact ih.of_eq (by rw [system]) (by rw [system]) (by rw [system])
  | factorize before call ih => exact handle_of_factorize call
  | @solve log w t F b outcome before products call ih =>
    have hkeeps : Keeps (fun w : Workspace σ R K =>
        (w.system.method, w.system.matrix, w.system.factors)) (LinearSystem.solve B F b) := by
      refine solve_keeps_unsolved (fun _ _ _ _ => rfl) hB (fun v w => ?_) b
      exact congrArg (fun s : LinearSystem R K => (s.method, s.matrix, s.factors)) (products v w)
    have hkept := hkeeps w
    rw [call] at hkept
    simp only [Prod.mk.injEq] at hkept
    obtain ⟨hmethod, hmatrix, hfactors⟩ := hkept
    exact ih.of_eq hmethod hmatrix hfactors

end Handles

/-! ## Solves -/

section Solves

variable {F : Vec K → Work σ R K (Vec K)} {b : Vec K} {w : Workspace σ R K}

/-- The fault of a solve by the method `M` without the factors that it needs. -/
def unfactored : SolveMethod → Fault
  | .lstsq => .unfitSystem
  | _ => .noFactors

theorem unfactored_of_isDirect (h : M.IsDirect) : unfactored M = .noFactors := by
  cases M with
  | lu | splu => rfl
  | gmres | lstsq => exact h.elim

/-- Before the first matrix a solve says what is missing and changes nothing. -/
theorem Handle.solve_empty (h : Handle B w.system none) :
    (solve B F b).eval w = (.error (.fault (.refused .noMatrix)), w) := by
  cases h with
  | empty matrix =>
    rw [solve, eval_bind, eval_get]
    simp only [matrix]
    rfl

/-- After a factorisation that failed a solve is counted and finds no factors. -/
theorem Handle.solve_declined (h : Handle B w.system (some (A, .error e)))
    (hmethod : w.system.method = some M) :
    (solve B F b).eval w = (.error (.fault (unfactored M)),
      { w with system := { w.system with solves := w.system.solves + 1 } }) := by
  cases h with
  | declined method matrix factors cause =>
    cases method.symm.trans hmethod
    rw [solve, eval_bind, eval_get]
    simp only [matrix, method, Option.getD_some]
    cases M with
    | gmres => exact (cause.ne_gmres rfl).elim
    | lu => simp [eval_bind, change, solveBy, solveDense, matrix, method, factors, unfactored]
    | splu => simp [eval_bind, change, solveBy, solveSparse, matrix, method, factors, unfactored]
    | lstsq => simp [eval_bind, change, solveBy, solveLeastSquares, matrix, method, factors, unfactored]

/-- What a method computes from its factors, by what the backend promises. -/
theorem solveBy_prepared {P : SolveMethod → Matrix R K → Vec K → Vec K → Prop} (hP : B.Solves P)
    {s : LinearSystem R K} (h : B.Prepares A M s.factors) :
    (solveBy B F A s b M).Ends w (fun x _ => P M A b x)
      (fun e _ => M.IsDirect → e ≠ .fault .noFactors) := by
  generalize hfactors : s.factors = factors at h
  cases h with
  | lu D dense regular =>
    simp only [solveBy, ends_ofFault, hfactors, solveDense]
    split
    · simp
    next hsize =>
      split
      · simp
      next hsquare =>
        refine ⟨fun x hx => ?_, by simp⟩
        cases hx
        exact hP.lu (.lu D dense regular) (by simpa using hsquare) (not_not.1 hsize)
  | splu D dense square regular =>
    simp only [solveBy, ends_ofFault, hfactors, solveSparse]
    split
    · simp
    · split
      · simp
      next hsize =>
        refine ⟨fun x hx => ?_, by simp⟩
        cases hx
        exact hP.splu (.splu D dense square regular) (not_not.1 hsize)
  | lstsq D dense =>
    simp only [solveBy, ends_ofFault, hfactors, solveLeastSquares]
    split
    · simp [SolveMethod.IsDirect]
    next hsize =>
      split
      · simp
      · refine ⟨fun x hx => ?_, by simp⟩
        cases hx
        exact hP.lstsq (.lstsq D dense) (not_not.1 hsize)
  | gmres =>
    simp only [solveBy, solveIteratively, SolveMethod.IsDirect, false_implies]
    refine Ends.guard (I := fun _ => A.isSquare = true ∧ b.size = A.height) (fun _ => trivial)
      (fun h => by simpa using h) fun t ht => ?_
    refine (hP.gmres ht.1 ht.2 rfl).bind (fun r v hr => ?_) (fun _ _ _ => trivial)
    cases hstop : r.2 with
    | converged => simpa [hstop] using hr
    | stopped k => simpa [hstop, Workspace.warn] using hr

/-- After a factorisation that returned a solve answers for its matrix. -/
theorem Handle.solve_prepared {P : SolveMethod → Matrix R K → Vec K → Vec K → Prop}
    (hP : B.Solves P) (h : Handle B w.system (some (A, .ok ())))
    (hmethod : w.system.method = some M) :
    (solve B F b).Ends w (fun x _ => P M A b x) (fun e _ => M.IsDirect → e ≠ .fault .noFactors) := by
  cases h with
  | prepared method matrix factors =>
    cases method.symm.trans hmethod
    rw [solve, ends_bind, ends_get]
    simp only [matrix, method, Option.getD_some, change, ends_bind, ends_modify]
    refine (solveBy_prepared hP factors).mono (fun x t hx => ?_) (fun _ _ he => he)
    rw [answer]
    exact Ends.guard (I := fun _ => True) (fun _ => by simp) (fun _ => trivial) fun _ _ => hx

/-- A solve after a factorisation that found its matrix singular looks for factors that are not
there. -/
theorem Handle.solve_singular {f : Failure R K}
    (h : Handle B w.system (some (A, .error (.failure f)))) :
    f.kind = .singularSystem ∧ (solve B F b).eval w = (.error (.fault .noFactors),
      { w with system := { w.system with solves := w.system.solves + 1 } }) := by
  cases h with
  | declined method matrix factors cause =>
    obtain ⟨hkind, hdirect⟩ := cause.failure
    refine ⟨hkind, ?_⟩
    rw [← unfactored_of_isDirect hdirect]
    exact Handle.solve_declined (.declined method matrix factors cause) method

/-- Every way in which a solve can end, by the call of `factorize` before it. -/
theorem Handle.solve_ends {P : SolveMethod → Matrix R K → Vec K → Vec K → Prop} (hP : B.Solves P)
    {given : Option (Matrix R K × Except (Thrown R K) Unit)} (h : Handle B w.system given) :
    (solve B F b).Ends w
      (fun x _ => ∃ A M, given = some (A, .ok ()) ∧ w.system.method = some M ∧ P M A b x)
      (fun e _ => (given = none → e = .fault (.refused .noMatrix)) ∧
        ∀ M, w.system.method = some M → M.IsDirect →
          (e = .fault .noFactors ↔ ∃ A e', given = some (A, .error e'))) := by
  rcases given with _ | ⟨A, e | _⟩
  · refine ends_iff.2 ⟨fun x t ht => ?_, fun e t ht => ?_⟩
    · cases h.solve_empty.symm.trans ht
    · cases h.solve_empty.symm.trans ht
      simp
  · have hmethod : ∃ M, w.system.method = some M := by
      cases h with
      | declined method => exact ⟨_, method⟩
    obtain ⟨M, hM⟩ := hmethod
    refine ends_iff.2 ⟨fun x t ht => ?_, fun e' t ht => ?_⟩
    · cases (h.solve_declined hM).symm.trans ht
    · cases (h.solve_declined hM).symm.trans ht
      refine ⟨by simp, fun M' hM' hdirect => iff_of_true ?_ ⟨A, e, rfl⟩⟩
      rw [hM] at hM'
      rw [Option.some.inj hM', unfactored_of_isDirect hdirect]
  · have hmethod : ∃ M, w.system.method = some M := by
      cases h with
      | prepared method => exact ⟨_, method⟩
    obtain ⟨M, hM⟩ := hmethod
    refine (h.solve_prepared hP hM).mono (fun x _ hx => ⟨A, M, rfl, hM, hx⟩) fun e _ he => ?_
    refine ⟨by simp, fun M' hM' hdirect => iff_of_false ?_ (by simp)⟩
    rw [hM] at hM'
    cases hM'
    exact he hdirect

end Solves

end LinearSystem

/-! ## Newton runs with reuse -/

namespace Run

variable {X : Type} {S : Strategy σ R K X} {c : Setup σ R K} {r s t : Run σ R K X}

/-- A step that fails is ended with its failure. -/
theorem step_ended {f : Failure R K} (hstep : (S.step c).eval r = (.error (.failure f), s))
    (hend : (endWith c f).eval s = (.ok (), t)) :
    (step S c).eval r = (.ok (), recorded c r.u t) := by
  obtain ⟨trace, printed, hrecord⟩ := record_eval c r.u t
  simp only [step, eval_bind, eval_get, eval_attempt, hstep, hend]
  rw [recorded, hrecord]

/-- A fault leaves a step as it is. -/
theorem step_faulted {f : Fault} (hstep : (S.step c).eval r = (.error (.fault f), s)) :
    (step S c).eval r = (.error (.fault f), s) := by
  simp only [step, eval_bind, eval_get, eval_attempt, hstep, eval_throw]

end Run

namespace Newton

variable {a : Newton σ R K} {c : Setup σ R K} {world : σ} {r r₀ : Run σ R K (State σ R K)}
  {J : Matrix R K} {f : Failure R K} {w w' : Workspace σ R K}

/-- A step whose Jacobian is found singular fails with the failure of the factorisation. -/
theorem step_singular (needed : NeedsJacobian c r = true)
    (made : (c.problem.jacobianAt r.ext.jacobians r.u (some r.fu)).eval r.work = (.ok J, w))
    (singular : (LinearSystem.factorize c.backend (a.systemMatrix J)).eval w =
      (.error (.failure f), w')) :
    (a.step c).eval r = (.error (.failure f), { r with work := w' }) := by
  unfold NeedsJacobian at needed
  simp only [step, renew, eval_bind, eval_get, needed, if_true, Run.onWork, eval_within, made,
    singular]

/-- A step with an old Jacobian, whose system was not factorised, ends with a fault. -/
theorem step_unfactored {A : Matrix R K} {e : Thrown R K} {M : SolveMethod} {b : Vec K}
    (needed : NeedsJacobian c r = false) (hJ : r.work.jacobian = some J)
    (hb : a.rightSide (some J) r.fu = .ok b)
    (handle : LinearSystem.Handle c.backend r.work.system (some (A, .error e)))
    (hM : r.work.system.method = some M) :
    ∃ t, (a.step c).eval r = (.error (.fault (LinearSystem.unfactored M)), t) := by
  simp only [step, eval_bind, renew_kept needed, direction, eval_get, hJ, hb, eval_ofFault_ok,
    Run.onWork, eval_within, handle.solve_declined hM]
  exact ⟨_, rfl⟩

/-- There is a right-hand side for a Jacobian that has been made and has entries. -/
theorem rightSide_of_made {D : Dense K}
    (made : (c.problem.jacobianAt r.ext.jacobians r.u (some r.fu)).eval r.work = (.ok J, w))
    (hD : (a.systemMatrix J).toDense? = some D) : ∃ b, a.rightSide (some J) r.fu = .ok b := by
  have hheight := ((c.problem.jacobianAt_spec _ _ _ _).ok made).height.symm
  unfold systemMatrix at hD
  unfold rightSide
  cases hform : a.form with
  | direct => exact ⟨r.fu, rfl⟩
  | normal =>
    rw [hform] at hD
    simp only [Matrix.applyTranspose, hheight, ne_eq, not_true_eq_false, if_false]
    cases J with
    | dense A => exact ⟨_, rfl⟩
    | sparse A => exact ⟨_, rfl⟩
    | free A => cases hD

/-- **Reuse after a singular start.**  If the first Jacobian of a run with reuse is singular, the
first step reports it, and the next step is no step with a failure at all: the policy keeps the
Jacobian that was stored and the solve finds no factors. -/
theorem singular_strands (hstart : Run.start a.strategy c world = .ok r₀) (hreuse : a.reuse = true)
    (hsame : r₀.u.same r₀.u = true) (hnorm : ¬c.options.norm r₀.fu < c.options.norm r₀.fu)
    (hway : ¬a.reuseTolerance < c.options.norm r₀.u.zerosLike)
    (made : (c.problem.jacobianAt r₀.ext.jacobians r₀.u (some r₀.fu)).eval r₀.work = (.ok J, w))
    (singular : (LinearSystem.factorize c.backend (a.systemMatrix J)).eval w =
      (.error (.failure f), w')) :
    f.kind = .singularSystem ∧ ∃ t t', (Run.step a.strategy c).eval r₀ = (.ok (), t) ∧
      t.error = some f ∧ (Run.step a.strategy c).eval t = (.error (.fault .noFactors), t') := by
  have hprepared := start_ok (Run.start_prepared hstart)
  have hunbuilt := Unbuilt.of_start hstart
  have hsettings : r₀.ext.jacobians.reuse = true ∧
      r₀.ext.jacobians.reuseTolerance = a.reuseTolerance :=
    ⟨hprepared.reuse.trans hreuse, hprepared.reuseTolerance⟩
  have hneeded : NeedsJacobian c r₀ = true := by
    simp [NeedsJacobian, JacobianSettings.needsRebuild, hunbuilt.jacobian]
  have hhandle := LinearSystem.handle_of_factorize singular
  obtain ⟨hcause, hw'⟩ := (LinearSystem.factorize_spec c.backend (a.systemMatrix J) w).error singular
  obtain ⟨hkind, hdirect⟩ := hcause.failure
  -- the failure leaves the run where it is
  have hrests : r₀.checker.fallback.same r₀.u = true := by
    have hfallback : r₀.checker.fallback = r₀.u := by
      rw [Run.start_checker hstart]
      exact ite_self _
    rw [hfallback]
    exact hsame
  obtain ⟨_, t, ht, printed, rfl⟩ :=
    (Run.endWith_rests (c := c) (r := { r₀ with work := w' }) f hrests).exists_ok
  have hstepped := Run.step_ended (S := a.strategy) (step_singular hneeded made singular) ht
  obtain ⟨trace, printed', hrecorded⟩ := Run.recorded_eq c r₀.u _
  rw [hrecorded] at hstepped
  -- the next step finds the Jacobian of the first one, and nothing that speaks against it
  have hJ : w'.jacobian = some J := by
    have hstored : w.jacobian = some J := ((c.problem.jacobianAt_spec _ _ _ _).ok made).stored
    rw [hw', hstored]
  have hM : w'.system.method = some (w.system.method.getD (.forMatrix (a.systemMatrix J))) := by
    rw [hw']
  obtain ⟨D, hD⟩ := hcause.exists_dense
  obtain ⟨b, hb⟩ := rightSide_of_made made hD
  have hkept : NeedsJacobian c { r₀ with work := w' } = false := by
    have hway₀ : r₀.ext.way = r₀.u.zerosLike := hunbuilt.way
    simp [NeedsJacobian, JacobianSettings.needsRebuild, hJ, hsettings.1, hsettings.2,
      hunbuilt.previous, hway₀, hnorm, hway]
  obtain ⟨t', ht'⟩ := step_unfactored (a := a) (c := c)
    (r := { { r₀ with work := w' }.failed f with
      printed := printed', steps := r₀.steps + 1, trace }) hkept hJ hb hhandle hM
  rw [LinearSystem.unfactored_of_isDirect hdirect] at ht'
  exact ⟨hkind, _, t', hstepped, rfl, Run.step_faulted ht'⟩

end Newton

/-- **What a failed factorisation leaves.**  After any calls of a linear system a solve that answers
gives a solution for the matrix that was given last, and that matrix was factorised. Where its
factorisation failed, the handle has a matrix and no factors: by a direct method every solve ends in
the fault of the missing factors, which is neither a failure of the solve nor the refusal of a solve
without a matrix. So does the second step of a Newton run with reuse whose first Jacobian is
singular. -/
theorem LinearSystem.failed_strands (hB : B.Frames)
    {P : SolveMethod → Matrix R K → Vec K → Vec K → Prop} (hP : B.Solves P) :
    (∀ (log : List (Call R K)) (w : Workspace σ R K), History B log w →
      ∀ (F : Vec K → Work σ R K (Vec K)) (b : Vec K),
        (solve B F b).Ends w
          (fun x _ => ∃ A M, lastGiven log = some (A, .ok ()) ∧ w.system.method = some M ∧ P M A b x)
          (fun e _ => (lastGiven log = none → e = .fault (.refused .noMatrix)) ∧
            ∀ M, w.system.method = some M → M.IsDirect →
              (e = .fault .noFactors ↔ ∃ A e', lastGiven log = some (A, .error e'))) ∧
        ∀ A f, lastGiven log = some (A, .error (.failure f)) → f.kind = .singularSystem ∧
          (solve B F b).eval w = (.error (.fault .noFactors),
            { w with system := { w.system with solves := w.system.solves + 1 } })) ∧
    ∀ (a : Newton σ R K) (c : Setup σ R K) (world : σ) (r₀ : Run σ R K (Newton.State σ R K))
      (J : Matrix R K) (f : Failure R K) (w w' : Workspace σ R K),
      Run.start a.strategy c world = .ok r₀ → a.reuse = true → r₀.u.same r₀.u = true →
      ¬c.options.norm r₀.fu < c.options.norm r₀.fu →
      ¬a.reuseTolerance < c.options.norm r₀.u.zerosLike →
      (c.problem.jacobianAt r₀.ext.jacobians r₀.u (some r₀.fu)).eval r₀.work = (.ok J, w) →
      (factorize c.backend (a.systemMatrix J)).eval w = (.error (.failure f), w') →
        f.kind = .singularSystem ∧ ∃ t t', (Run.step a.strategy c).eval r₀ = (.ok (), t) ∧
          t.error = some f ∧ (Run.step a.strategy c).eval t = (.error (.fault .noFactors), t') := by
  refine ⟨fun log w h F b => ⟨(h.handle hB).solve_ends hP, fun A f hgiven => ?_⟩, ?_⟩
  · have hhandle := h.handle hB
    rw [hgiven] at hhandle
    exact hhandle.solve_singular
  · intro a c world r₀ J f w w' hstart hreuse hsame hnorm hway made singular
    exact Newton.singular_strands hstart hreuse hsame hnorm hway made singular

/-! ## Exact arithmetic -/

section Exactly

variable {𝕜 L : Type} [RCLike 𝕜] [Entry Exact L] [ExactEntry 𝕜 L]

variable (𝕜) in
/-- By a direct method the vector `x` solves the system of numbers exactly. -/
def SolvedExactly (M : SolveMethod) (A : Matrix Exact L) (b x : Vec L) : Prop :=
  M.IsDirect → ∀ (n : Nat) (N : FieldMatrix 𝕜 n n) (g : Fin n → 𝕜), A.Reads N → b.Reads g →
    ∃ y, x.Reads y ∧ N *ᵥ y = g

/-- Direct methods that solve the systems that they accept solve those of the last matrix. -/
theorem Backend.Eliminates.solves {B : Backend σ Exact L} (hB : B.Eliminates 𝕜) :
    B.Solves (SolvedExactly 𝕜) where
  lu h _ _ _ n N g hA hb := by
    obtain ⟨D, hD, hconcrete, -⟩ := hA.concrete
    cases h with
    | lu D' dense regular =>
      cases hconcrete.symm.trans dense
      exact hB.lu hD hb regular
  splu h _ _ n N g hA hb := by
    obtain ⟨D, hD, -, hdense⟩ := hA.concrete
    cases h with
    | splu D' dense _ regular =>
      cases hdense.symm.trans dense
      exact hB.splu hD hb regular
  lstsq _ _ h := h.elim
  gmres _ _ _ := ends_iff.2 ⟨fun _ _ _ h => h.elim, fun _ _ _ => trivial⟩

end Exactly

/-! ## A singular matrix -/

/-- A matrix whose second row is twice the first one. -/
def doubledRows : Dense Number :=
  ⟨2, [[.real 1.0, .real 2.0], [.real 2.0, .real 4.0]], by decide⟩

/-- A constant residual with the slope zero. -/
def flatProblem : Problem Unit Numeral Number where
  residual := .returning fun t w => (.ok ⟨t.shape, t.entries.map fun _ => .real 1.0⟩, w)
  guess := ⟨[1], .ofList [.real 1.0]⟩
  jacobian := some fun _ w => (.ok (.number (.real 0.0)), w)

def reusingNewton : Newton Unit Numeral Number := { Newton.standard .direct with reuse := true }

/-- Whether an action has ended with a failure of the solve. -/
def hasFailed {α : Type} : Except (Thrown Numeral Number) α → Bool
  | .error (.failure _) => true
  | _ => false

theorem exists_of_hasFailed {α : Type} {outcome : Except (Thrown Numeral Number) α}
    (h : hasFailed outcome = true) : ∃ f, outcome = .error (.failure f) := by
  rcases outcome with (f | f) | x
  · exact ⟨f, rfl⟩
  · cases h
  · cases h

/-- Whether the first Jacobian of a run is found singular. -/
def startsSingular (a : Newton Unit Numeral Number) (c : Setup Unit Numeral Number)
    (r : Run Unit Numeral Number (Newton.State Unit Numeral Number)) : Bool :=
  match (c.problem.jacobianAt r.ext.jacobians r.u (some r.fu)).eval r.work with
  | (.ok J, w) => hasFailed ((LinearSystem.factorize c.backend (a.systemMatrix J)).eval w).1
  | _ => false

theorem exists_of_startsSingular {a : Newton Unit Numeral Number} {c : Setup Unit Numeral Number}
    {r : Run Unit Numeral Number (Newton.State Unit Numeral Number)}
    (h : startsSingular a c r = true) :
    ∃ J f w w', (c.problem.jacobianAt r.ext.jacobians r.u (some r.fu)).eval r.work = (.ok J, w) ∧
      (LinearSystem.factorize c.backend (a.systemMatrix J)).eval w = (.error (.failure f), w') := by
  unfold startsSingular at h
  split at h
  next J w made =>
    obtain ⟨f, hf⟩ := exists_of_hasFailed h
    exact ⟨J, f, w, _, made, Prod.ext hf rfl⟩
  next => cases h

theorem doubledRows_singular :
    ∃ f w, (LinearSystem.factorize Backend.standard (.dense doubledRows)).eval
      (Run.emptyWorkspace () : Workspace Unit Numeral Number) = (.error (.failure f), w) := by
  have h : hasFailed ((LinearSystem.factorize Backend.standard (.dense doubledRows)).eval
      (Run.emptyWorkspace () : Workspace Unit Numeral Number)).1 = true := by decide +kernel
  rcases hrun : (LinearSystem.factorize Backend.standard (.dense doubledRows)).eval
      (Run.emptyWorkspace () : Workspace Unit Numeral Number) with ⟨outcome, w⟩
  rw [hrun] at h
  obtain ⟨f, rfl⟩ := exists_of_hasFailed h
  exact ⟨f, w, rfl⟩

/-- The history of the handle that has only been given that matrix. -/
theorem doubledRows_history {f : Failure Numeral Number} {w : Workspace Unit Numeral Number}
    (h : (LinearSystem.factorize Backend.standard (.dense doubledRows)).eval
      (Run.emptyWorkspace ()) = (.error (.failure f), w)) :
    LinearSystem.History Backend.standard [.factorize (.dense doubledRows) (.error (.failure f))] w :=
  .factorize (.fresh none .standard rfl) h

theorem flatProblem_starts :
    ∃ r₀, Run.start reusingNewton.strategy (plainSetup flatProblem) () = .ok r₀ ∧
      r₀.u.same r₀.u = true ∧
      ¬(plainSetup flatProblem).options.norm r₀.fu < (plainSetup flatProblem).options.norm r₀.fu ∧
      ¬reusingNewton.reuseTolerance < (plainSetup flatProblem).options.norm r₀.u.zerosLike ∧
      startsSingular reusingNewton (plainSetup flatProblem) r₀ = true := by
  have h : (Run.start reusingNewton.strategy (plainSetup flatProblem) ()).toOption.any (fun r₀ =>
      r₀.u.same r₀.u && !decide ((plainSetup flatProblem).options.norm r₀.fu <
        (plainSetup flatProblem).options.norm r₀.fu) &&
      !decide (reusingNewton.reuseTolerance <
        (plainSetup flatProblem).options.norm r₀.u.zerosLike) &&
      startsSingular reusingNewton (plainSetup flatProblem) r₀) = true := by decide +kernel
  rcases hstart : Run.start reusingNewton.strategy (plainSetup flatProblem) () with e | r₀
  · rw [hstart] at h
    cases h
  · rw [hstart] at h
    simp only [Except.toOption, Option.any_some, Bool.and_eq_true, Bool.not_eq_true',
      decide_eq_false_iff_not] at h
    exact ⟨r₀, rfl, h.1.1.1, h.1.1.2, h.1.2, h.2⟩

theorem identity_reads : Dense.Reads (Grid.ofRow [Exact.real 1]) (!![1] : FieldMatrix ℝ 1 1) :=
  ⟨rfl, rfl⟩

/-- The dense solution for the entries of a matrix. -/
def Eliminated (M : SolveMethod) (A : Matrix Numeral Number) (b x : Vec Number) : Prop :=
  ∀ D, M = .lu → LinearSystem.concrete A = .ok D →
    x = (Backend.standard : Backend Unit Numeral Number).luSolve D b

theorem standard_eliminated :
    (Backend.standard : Backend Unit Numeral Number).Solves Eliminated where
  lu h _ _ D' _ hD' := by
    cases h with
    | lu D dense _ =>
      cases dense.symm.trans hD'
      rfl
  splu _ _ _ hM := by cases hM
  lstsq _ _ _ hM := by cases hM
  gmres _ _ _ := ends_iff.2 ⟨fun _ _ _ _ hM => (by cases hM), fun _ _ _ => trivial⟩

/-- The identity in one unknown is solved; a solve after a singular matrix looks for factors, and so
does the second step of a run whose slope is zero. -/
theorem LinearSystem.doubledRows_strands :
    (∃ w : Workspace Unit Exact Exact,
      History Backend.standard [.factorize (.dense (.ofRow [Exact.real 1])) (.ok ())] w ∧
        ∀ (F : Vec Exact → Work Unit Exact Exact (Vec Exact)) (b : Vec Exact) (g : Fin 1 → ℝ),
          b.Reads g → (solve Backend.standard F b).Ends w
            (fun x _ => ∃ y, x.Reads y ∧ (!![1] : FieldMatrix ℝ 1 1) *ᵥ y = g)
            (fun e _ => e ≠ .fault .noFactors)) ∧
    (∃ f w, History Backend.standard [.factorize (.dense doubledRows) (.error (.failure f))] w ∧
      f.kind = .singularSystem ∧ ∀ (F : Vec Number → Work Unit Numeral Number (Vec Number)) b,
        ((solve Backend.standard F b).eval w).1 = .error (.fault .noFactors)) ∧
    ∃ r₀ f t t', Run.start reusingNewton.strategy (plainSetup flatProblem) () = .ok r₀ ∧
      (Run.step reusingNewton.strategy (plainSetup flatProblem)).eval r₀ = (.ok (), t) ∧
      t.error = some f ∧ f.kind = .singularSystem ∧
      (Run.step reusingNewton.strategy (plainSetup flatProblem)).eval t =
        (.error (.fault .noFactors), t') := by
  refine ⟨?_, ?_, ?_⟩
  · obtain ⟨_, w, hw, -⟩ := (factorize_single (w := Run.emptyWorkspace ()) identity_reads
      (by simp) rfl).exists_ok
    have hhistory : History Backend.standard
        [.factorize (.dense (.ofRow [Exact.real 1])) (.ok ())] w :=
      .factorize (.fresh none .standard rfl) hw
    refine ⟨w, hhistory, fun F b g hb => ?_⟩
    have hmethod : w.system.method = some .lu := ((factorize_ready _ _ _).ok hw).method
    refine (((failed_strands Backend.standard_frames
      (Backend.standard_eliminates ℝ).solves).1 _ w hhistory F b).1).mono (fun x _ hx => ?_)
      fun e _ he => ?_
    · obtain ⟨A, M, hA, hM, hsolved⟩ := hx
      cases hA
      cases hmethod.symm.trans hM
      exact hsolved trivial 1 _ g identity_reads hb
    · intro hfactors
      obtain ⟨A, e', hfailed⟩ := (he.2 .lu hmethod trivial).1 hfactors
      cases hfailed
  · obtain ⟨f, w, hw⟩ := doubledRows_singular
    have hfails := fun F b => ((failed_strands Backend.standard_frames standard_eliminated).1 _ w
      (doubledRows_history hw) F b).2 _ f rfl
    exact ⟨f, w, doubledRows_history hw, (hfails (fun v => pure v) (.ofList [])).1, fun F b => by
      rw [(hfails F b).2]⟩
  · obtain ⟨r₀, hstart, hsame, hnorm, hway, hsingular⟩ := flatProblem_starts
    obtain ⟨J, f, w, w', made, singular⟩ := exists_of_startsSingular hsingular
    obtain ⟨hkind, t, t', hstep, herror, hagain⟩ :=
      (failed_strands Backend.standard_frames standard_eliminated).2 reusingNewton
        (plainSetup flatProblem) () r₀ J f w w' hstart rfl hsame hnorm hway made singular
    exact ⟨r₀, f, t, t', hstart, hstep, herror, hkind, hagain⟩

/-- A solve after a factorisation that has found its matrix singular neither fails as singular nor
asks for a factorisation, and a run with reuse does not step on after a singular Jacobian. -/
theorem LinearSystem.singular_unguarded :
    (¬∀ (log : List (Call Numeral Number)) (w w' : Workspace Unit Numeral Number)
      (A : Matrix Numeral Number) (f : Failure Numeral Number)
      (F : Vec Number → Work Unit Numeral Number (Vec Number)) (b : Vec Number)
      (e : Thrown Numeral Number), History Backend.standard log w →
        lastGiven log = some (A, .error (.failure f)) → f.kind = .singularSystem →
        (solve Backend.standard F b).eval w = (.error e, w') →
          (∃ g, e = .failure g ∧ g.kind = .singularSystem) ∨ e = .fault (.refused .noMatrix)) ∧
    ¬∀ r₀ t, Run.start reusingNewton.strategy (plainSetup flatProblem) () = .ok r₀ →
      (Run.step reusingNewton.strategy (plainSetup flatProblem)).eval r₀ = (.ok (), t) →
        ∃ t', (Run.step reusingNewton.strategy (plainSetup flatProblem)).eval t = (.ok (), t') := by
  constructor
  · intro hclaim
    obtain ⟨f, w, hw⟩ := doubledRows_singular
    have hhandle := handle_of_factorize hw
    obtain ⟨hkind, hsolve⟩ := hhandle.solve_singular (F := fun v => pure v) (b := .ofList [])
    rcases hclaim _ w _ _ f _ _ _ (doubledRows_history hw) rfl hkind hsolve with ⟨g, hg, -⟩ | hnone
    · cases hg
    · cases hnone
  · intro hclaim
    obtain ⟨r₀, hstart, hsame, hnorm, hway, hsingular⟩ := flatProblem_starts
    obtain ⟨J, f, w, w', made, singular⟩ := exists_of_startsSingular hsingular
    obtain ⟨-, t, t', hstep, -, hagain⟩ :=
      Newton.singular_strands hstart rfl hsame hnorm hway made singular
    obtain ⟨t'', hreturns⟩ := hclaim r₀ t hstart hstep
    cases hagain.symm.trans hreturns

end RootFinding
