import RootFinding.Proofs.Consistency
import RootFinding.Proofs.Elimination
import RootFinding.Proofs.ExactJacobian
import RootFinding.Proofs.Newton
import RootFinding.Proofs.StepSize
import RootFinding.Proofs.Steps
import RootFinding.Proofs.Success
import RootFinding.Proofs.Systems

/-!
# The recurrence of pseudo-transient continuation

The run of the pseudo-transient strategy as a recurrence of iterates and step sizes.

* `PseudoTransient.Stepped c r t`: what a step that goes on has done, over any scalars.
  `step_stepped`: so ends every step that its check does not stop.
* `PseudoTransient.Obeys c k s t z y x ...`: the step from `s` to `t` is one of the recurrence. It
  goes against the answer of the linear system, and where that is found by elimination it solves
  the equation of the step.
* `PseudoTransient.Boundary k t ...`: the sizes and the controller between the steps.
* `PseudoTransient.run_refines`: all steps of a run are those of the recurrence.
* `PseudoTransient.step_goes`: where its direction and its residual are answered, a step goes on.
-/

open scoped Matrix

namespace RootFinding

open Action Exact ExactEntry

namespace PseudoTransient

/-! ## Steps -/

section Steps

variable {σ R K : Type} [Scalar R] [Entry R K] {a : PseudoTransient R} {c : Setup σ R K}
  {r s t : Run σ R K (State R K)}

/-- The step from `s` to `t` has moved against the answer of the linear system for the matrix `A`,
the Jacobian `J` at the iterate with `shift` on its diagonal, and for the residual there. -/
structure Solved (c : Setup σ R K) (s t : Run σ R K (State R K)) (shift : R) (J A : Matrix R K) :
    Prop where
  shifted : J.shift shift = .ok A
  answer : ∃ w w' w'',
    (c.problem.jacobianAt s.ext.jacobians s.u (some s.fu)).eval s.work = (.ok J, w) ∧
      (LinearSystem.factorize c.backend A).eval w = (.ok (), w') ∧
      (LinearSystem.solve c.backend c.problem.evaluate s.fu).eval w' = (.ok t.du, w'')
  u : t.u = s.u - t.du

/-- The error of a step from `r` to its present iterate has given the state `ext`. -/
def Adapted (r : Run σ R K (State R K)) (ext : State R K) : Prop :=
  ∃ error next accepted controller,
    estimateError ⟨r.u, r.previous, r.ext.beforePrevious⟩ r.ext.alpha r.ext.alphaPrevious
      r.ext.controller.abstol r.ext.controller.reltol Vec.rms = .ok error ∧
    (StepController.update error r.ext.alpha).eval r.ext.controller =
      (.ok (next, accepted), controller) ∧
    ext = { r.ext with
      error, controller, beforePrevious := r.previous, alphaPrevious := r.ext.alpha
      alpha := next }

/-- What a step from `r` that goes on has done when `t` is left. -/
structure Stepped (c : Setup σ R K) (r t : Run σ R K (State R K)) : Prop where
  solved : ∃ shift J A, Checked.div 1.0 r.ext.alpha = .ok shift ∧ Solved c r t shift J A ∧
    (c.backend.Frames →
      t.work.system.method = some (r.work.system.method.getD (SolveMethod.forMatrix A)))
  previous : t.previous = r.u
  alpha : t.alpha = r.ext.alpha
  answered : c.problem.Answered t.u t.fu
  adapted : Adapted { t with ext := r.ext } t.ext

theorem adapt_adapted (r : Run σ R K (State R K)) :
    adapt.Ends r (fun _ t => Adapted r t.ext ∧ t.work = r.work) (fun _ _ => True) := by
  simp only [adapt, control, ends_bind, ends_get, ends_ofFault, Run.ends_update, Run.ends_onExt,
    ends_within, ends_mapError]
  refine ⟨fun error herror => ?_, fun _ _ => trivial⟩
  refine ends_iff.2 ⟨fun x controller hupdate => ?_, fun _ _ _ => trivial⟩
  obtain ⟨next, accepted⟩ := x
  split
  · simp only [ends_bind, Run.ends_notice, Run.ends_update]
    exact ⟨⟨error, next, accepted, controller, herror, hupdate, rfl⟩, rfl⟩
  · exact ⟨⟨error, next, accepted, controller, herror, hupdate, rfl⟩, rfl⟩

/-- Where the error is estimated and the controller answers, the step size is adapted. -/
theorem adapt_controls {error next : R} {accepted : Bool} {controller : StepController R}
    (herror : estimateError ⟨r.u, r.previous, r.ext.beforePrevious⟩ r.ext.alpha
      r.ext.alphaPrevious r.ext.controller.abstol r.ext.controller.reltol Vec.rms = .ok error)
    (hupdate : (StepController.update error r.ext.alpha).eval r.ext.controller =
      (.ok (next, accepted), controller)) :
    adapt.Ends r
      (fun _ t => t.stopped = r.stopped ∧ t.u = r.u ∧ t.ext = { r.ext with
        error, controller, beforePrevious := r.previous, alphaPrevious := r.ext.alpha
        alpha := next })
      (fun _ _ => False) := by
  simp only [adapt, control, ends_bind, ends_get, Run.ends_update, Run.ends_onExt, ends_within,
    ends_mapError]
  refine (ends_ofFault_ok herror).2 ?_
  refine ends_iff.2 ⟨fun x controller' h => ?_, fun e controller' h => ?_⟩
  · cases hupdate.symm.trans h
    split
    · simp only [ends_bind, Run.ends_notice, Run.ends_update]
      exact ⟨rfl, rfl, rfl⟩
    · exact ⟨rfl, rfl, rfl⟩
  · cases hupdate.symm.trans h

/-- The linear system stays with the method that it has or takes for its matrix. -/
theorem method_of_answers (hB : c.backend.Frames) {J A : Matrix R K} {u v b x y : Vec K}
    {j : JacobianSettings R} {w₀ w w' w'' w₁ : Workspace σ R K}
    (hmade : (c.problem.jacobianAt j u (some b)).eval w₀ = (.ok J, w))
    (hfactorized : (LinearSystem.factorize c.backend A).eval w = (.ok (), w'))
    (hsolved : (LinearSystem.solve c.backend c.problem.evaluate b).eval w' = (.ok x, w''))
    (hevaluated : (c.problem.evaluate v).eval w'' = (.ok y, w₁)) :
    w₁.system.method = some (w₀.system.method.getD (SolveMethod.forMatrix A)) := by
  have hsystem : w.system = w₀.system := ((c.problem.jacobianAt_keeps _ _ _).ends _).ok hmade
  have hsolve : w''.model = w'.model := ((LinearSystem.solve_model hB _).ends _).ok hsolved
  have hevaluate : w₁.model = w''.model := ((c.problem.evaluate_model _).ends _).ok hevaluated
  have hready := (LinearSystem.factorize_ready c.backend A w).ok hfactorized
  rw [← hsystem]
  exact (hready.of_model (hevaluate.trans hsolve)).method

theorem step_stepped (r : Run σ R K (State R K)) :
    (step c).Ends r (fun _ t => t.stopped = true ∨ Stepped c r t) (fun _ _ => True) := by
  simp only [step, direction, ends_bind, ends_get, ends_modify, ends_ofFault, Run.ends_onWork,
    Run.ends_evaluate, Run.ends_moveTo]
  refine ends_iff.2 ⟨fun J w hmade => ?_, fun _ _ _ => trivial⟩
  refine ⟨fun shift hshift => ⟨fun A hA => ?_, fun _ _ => trivial⟩, fun _ _ => trivial⟩
  refine ends_iff.2 ⟨fun _ w' hfactorized => ?_, fun _ _ _ => trivial⟩
  refine ends_iff.2 ⟨fun du w'' hsolved => ?_, fun _ _ _ => trivial⟩
  refine ends_iff.2 ⟨fun fu v hevaluated => ?_, fun _ _ _ => trivial⟩
  let moved : Run σ R K (State R K) :=
    { r with work := v, previous := r.u, du, alpha := r.ext.alpha, u := r.u - du, fu }
  have hcheck := (Run.check_frame moved).and (Run.check_stops moved)
  refine hcheck.mono (fun converged t ht => ?_) (fun _ _ _ => trivial)
  obtain ⟨⟨checker, code, stopped, rfl⟩, hstops⟩ := ht
  split
  next hconverged => exact .inl (hstops hconverged)
  next =>
    refine ((adapt_keeps.ends _).and (adapt_adapted _)).mono (fun _ t ht => ?_)
      (fun _ _ _ => trivial)
    obtain ⟨hrest, hadapted, hwork⟩ := ht
    have hmethod (hB : c.backend.Frames) : t.work.system.method =
        some (r.work.system.method.getD (SolveMethod.forMatrix A)) := by
      rw [hwork]
      exact method_of_answers hB hmade hfactorized hsolved hevaluated
    rw [Run.eq_of_rest hrest]
    exact .inr ⟨⟨shift, J, A, hshift, ⟨hA, ⟨w, w', w'', hmade, hfactorized, hsolved⟩, rfl⟩,
      hmethod⟩, rfl, rfl, ⟨w'', v, hevaluated⟩, hadapted⟩

/-- The iterate and the size that a step leaves behind. -/
theorem Stepped.shifts (h : Stepped c r t) :
    t.ext.beforePrevious = r.u ∧ t.ext.alphaPrevious = r.ext.alpha := by
  obtain ⟨_, _, _, _, -, -, hext⟩ := h.adapted
  exact ⟨(congrArg (·.beforePrevious) hext).trans h.previous, congrArg (·.alphaPrevious) hext⟩

/-- A step of a run that goes on, and the finite values that it leaves. -/
theorem exists_stepped {printed : String}
    (h : (Run.step a.strategy c).eval { r with printed } = (.ok (), t))
    (ht : t.stopped = false) : Stepped c r t ∧ t.IsFinite := by
  rcases Run.step_cases h with ⟨t', ht', rfl⟩ | ⟨f, s, s', -, hend, rfl⟩
  · rw [Run.recorded_stopped] at ht
    obtain ⟨b, htested⟩ := (a.proceeds c _).ok ht'
    rcases (step_stepped _).ok ht' with hstopped | hs
    · exact absurd (ht.symm.trans hstopped) Bool.false_ne_true
    · obtain ⟨trace, printed', heq⟩ := Run.recorded_eq c r.u t'
      obtain ⟨shift, J, A, hshift, hsolved, hmethod⟩ := hs.solved
      change Stepped c r (Run.recorded c r.u t') ∧ (Run.recorded c r.u t').IsFinite
      rw [heq]
      exact ⟨⟨⟨shift, J, A, hshift, ⟨hsolved.shifted, hsolved.answer, hsolved.u⟩, hmethod⟩,
        hs.previous, hs.alpha, hs.answered, hs.adapted⟩, htested.isFinite⟩
  · rw [Run.recorded_stopped, hend.stopped_eq] at ht
    cases ht

end Steps

/-! ## The recurrence -/

section Recurrence

variable {σ 𝕜 K : Type} [RCLike 𝕜] [Entry Exact K] [ExactEntry 𝕜 K] {a : PseudoTransient Exact}
  {c : Setup σ Exact K} {k : StepController ℝ} {r₀ s t : Run σ Exact K (State Exact K)} {n : Nat}
  {z y x : Fin n → 𝕜} {initial alphaPrevious alpha next : ℝ}

/-- A step from `s` solves its linear system by elimination: a direct method was asked for, or none
was and the Jacobian is formed. -/
def ByElimination (c : Setup σ Exact K) (s : Run σ Exact K (State Exact K)) : Prop :=
  (∃ M, s.work.system.method = some M ∧ M.IsDirect) ∨
    s.work.system.method = none ∧ c.problem.isMatrixFree s.ext.jacobians = false

/-- The step from `s` to `t` is one of the recurrence: from the iterate `y` after `z` to `x`, with
the size `alpha` after `alphaPrevious`, and `next` for the next step. -/
structure Obeys (c : Setup σ Exact K) (k : StepController ℝ) (s t : Run σ Exact K (State Exact K))
    (z y x : Fin n → 𝕜) (alphaPrevious alpha next : ℝ) : Prop where
  before : s.u.Reads y ∧ c.problem.Answered s.u s.fu
  after : t.u.Reads x ∧ c.problem.Answered t.u t.fu ∧ t.fu.isFinite = true
  solved : ∃ J A, Solved c s t (real (1 / alpha)) J A ∧
    (ByElimination c s → ∃ N : FieldMatrix 𝕜 n n, J.Reads N ∧
      ∀ f, s.fu.Reads f → (N.addDiagonal fun _ => ((1 / alpha : ℝ) : 𝕜)) *ᵥ (y - x) = f)
  error : t.ext.error = real (k.errorOf x y z alpha alphaPrevious)
  control : next = k.nextSize alpha (k.errorOf x y z alpha alphaPrevious)
  sizes : t.alpha = real alpha ∧ t.ext.alphaPrevious = real alpha ∧ t.ext.alpha = real next
  iterates : t.previous = s.u ∧ t.ext.beforePrevious = s.u

/-- What holds between the steps. -/
structure Boundary (k : StepController ℝ) (t : Run σ Exact K (State Exact K))
    (alphaPrevious alpha : ℝ) : Prop where
  sizes : t.ext.alphaPrevious = real alphaPrevious ∧ t.ext.alpha = real alpha
  positive : 0 < alphaPrevious ∧ 0 < alpha
  controller : ∃ qold, t.ext.controller = StepController.exact { k with qold }

omit [RCLike 𝕜] [Entry Exact K] [ExactEntry 𝕜 K] in
theorem Boundary.of_ext (hb : Boundary k s alphaPrevious alpha) (h : t.ext = s.ext) :
    Boundary k t alphaPrevious alpha where
  sizes := h ▸ hb.sizes
  positive := hb.positive
  controller := h ▸ hb.controller

/-! ### The linear system -/

omit [RCLike 𝕜] [ExactEntry 𝕜 K] in
theorem isFree_of_shift {B : Operator Exact K} {shift : Exact} {A : Matrix Exact K}
    (h : (Matrix.free B).shift shift = .ok A) : A.IsFree := by
  unfold Matrix.shift at h
  split at h
  · cases h
    trivial
  · cases h

omit [RCLike 𝕜] [Entry Exact K] [ExactEntry 𝕜 K] in
/-- The direct methods take no matrices that are not formed. -/
theorem not_isFree_of_isDirect {A : Matrix Exact K} {w w' : Workspace σ Exact K}
    (h : (LinearSystem.factorize c.backend A).eval w = (.ok (), w'))
    (hdirect : (w.system.method.getD (SolveMethod.forMatrix A)).IsDirect) : ¬A.IsFree := by
  have hready := (LinearSystem.factorize_ready c.backend A w).ok h
  have hdense : ∃ D, A.toDense? = some D := by
    cases hM : w.system.method.getD (SolveMethod.forMatrix A) with
    | lu =>
      obtain ⟨D, hD, -⟩ := hready.lu hM
      exact ⟨D, hD⟩
    | splu =>
      obtain ⟨-, D, hD, -⟩ := hready.splu hM
      exact ⟨D, hD⟩
    | gmres | lstsq =>
      rw [hM] at hdirect
      exact hdirect.elim
  obtain ⟨D, hD⟩ := hdense
  cases A with
  | dense A | sparse A => exact id
  | free A => cases hD

variable (𝕜) in
/-- The Jacobian and the matrix of a step by elimination are formed, and its method is direct. -/
theorem Solved.reads (hp : c.problem.ZeroFilled) {shift : ℝ} {J A : Matrix Exact K}
    (h : Solved c s t (real shift) J A) (hs : ByElimination c s) (hn : s.u.size = n) :
    ∃ N : FieldMatrix 𝕜 n n, J.Reads N ∧ A.Reads (N.addDiagonal fun _ => (shift : 𝕜)) ∧
      (s.work.system.method.getD (SolveMethod.forMatrix A)).IsDirect := by
  obtain ⟨w, w', w'', hmade, hfactorized, -⟩ := h.answer
  have hsystem : w.system = s.work.system := ((c.problem.jacobianAt_keeps _ _ _).ends _).ok hmade
  obtain ⟨N, hN⟩ : ∃ N : FieldMatrix 𝕜 s.fu.size n, J.Reads N := by
    rcases (c.problem.jacobianAt_reads hp _ hn s.fu s.work).ok hmade with hN | ⟨hfree, B, rfl⟩
    · exact hN
    · rcases hs with ⟨M, hM, hdirect⟩ | ⟨-, hformed⟩
      · have hmethod : w.system.method = some M := hsystem ▸ hM
        have hshifted := not_isFree_of_isDirect hfactorized (by rw [hmethod]; exact hdirect)
        exact absurd (isFree_of_shift h.shifted) hshifted
      · exact absurd (hformed.symm.trans hfree) Bool.false_ne_true
  have hsquare : s.fu.size = n :=
    hN.height.symm.trans ((Matrix.isSquare_of_shift h.shifted).trans hN.cols)
  generalize s.fu.size = m at N hN hsquare
  subst hsquare
  have hA := hN.shift h.shifted
  refine ⟨N, hN, hA, ?_⟩
  rcases hs with ⟨M, hM, hdirect⟩ | ⟨hM, -⟩
  · rw [hM]
    exact hdirect
  · rw [hM]
    exact hA.forMatrix_isDirect

/-- The linear system of a step by elimination is solved. -/
theorem Solved.equation (hB : c.backend.Eliminates 𝕜) (hp : c.problem.ZeroFilled) {shift : ℝ}
    {J A : Matrix Exact K} (h : Solved c s t (real shift) J A) (hs : ByElimination c s)
    (hy : s.u.Reads y) (hx : t.u.Reads x) :
    ∃ N : FieldMatrix 𝕜 n n, J.Reads N ∧
      ∀ f, s.fu.Reads f → (N.addDiagonal fun _ => (shift : 𝕜)) *ᵥ (y - x) = f := by
  obtain ⟨N, hN, hA, hdirect⟩ := h.reads 𝕜 hp hs hy.size
  obtain ⟨w, w', w'', hmade, hfactorized, hsolved⟩ := h.answer
  have hsystem : w.system = s.work.system := ((c.problem.jacobianAt_keeps _ _ _).ends _).ok hmade
  rw [← hsystem] at hdirect
  refine ⟨N, hN, fun f hf => ?_⟩
  obtain ⟨d, hd, hsolves⟩ :=
    ((LinearSystem.eliminates hB hA hf c.problem.evaluate hdirect).ok hfactorized).ok hsolved
  have hstep : t.u.Reads (y - d) := by
    rw [h.u]
    exact hy.sub hd
  rw [hx.inj hstep, sub_sub_cancel]
  exact hsolves

/-! ### Between the steps -/

theorem initial_pos (hinitial : a.initial = real initial) (ha : a.refusal? = none) :
    0 < initial := by
  unfold refusal? at ha
  split at ha
  next hlt =>
    rw [hinitial, ofScientific_eq, real_lt] at hlt
    norm_num at hlt
    exact hlt
  next => cases ha

theorem Boundary.of_start {world : σ} (hinitial : a.initial = real initial)
    (hcontroller : a.controller = k.exact) (ha : a.refusal? = none)
    (h : Run.start a.strategy c world = .ok r₀) :
    Boundary k r₀ initial initial ∧ r₀.ext.beforePrevious = r₀.u := by
  have hpositive : 0 < initial := initial_pos hinitial ha
  have hprepared := start_ok (Run.start_prepared h)
  exact ⟨⟨⟨hprepared.alphaPrevious.trans hinitial, hprepared.alpha.trans hinitial⟩,
    ⟨hpositive, hpositive⟩, k.qold, hprepared.controller.trans hcontroller⟩,
    hprepared.beforePrevious.trans (Run.start_u h).symm⟩

/-- No tolerance of the error of a step is zero. -/
def HasScale (k : StepController ℝ) (y x : Fin n → 𝕜) : Prop :=
  ∀ i, k.abstol + k.reltol * max ‖y i‖ ‖x i‖ ≠ 0

/-- The error and the sizes that are adapted to the iterates of a run. -/
theorem Boundary.adapted (hk : k.Accepted) (hb : Boundary k s alphaPrevious alpha)
    {ext : State Exact K} (h : Adapted s ext) (hz : s.ext.beforePrevious.Reads z)
    (hy : s.previous.Reads y) (hx : s.u.Reads x) (hscale : HasScale k y x) :
    Boundary k { s with ext } alpha (k.nextSize alpha (k.errorOf x y z alpha alphaPrevious)) ∧
      ext.error = real (k.errorOf x y z alpha alphaPrevious) := by
  obtain ⟨qold, hcontroller⟩ := hb.controller
  obtain ⟨error, next, accepted, controller, herror, hupdate, rfl⟩ := h
  have hestimate := estimateError_exact k hx hy hz hb.positive.2 hb.positive.1 hscale
  rw [← hb.sizes.1, ← hb.sizes.2] at hestimate
  simp only [hcontroller, StepController.exact] at herror
  obtain rfl := Except.ok.inj (herror.symm.trans hestimate)
  have hk' : StepController.Accepted { k with qold } := ⟨hk.qmin, hk.qmax, hk.gamma⟩
  obtain ⟨accepted', hupdated⟩ :=
    StepController.update_exact hk' alpha (k.errorOf x y z alpha alphaPrevious)
  simp only [hcontroller, hb.sizes.2] at hupdate
  cases hupdate.symm.trans hupdated
  have hkept : ∃ back,
      (StepController.recorded { k with qold } alpha (k.errorOf x y z alpha alphaPrevious)).exact =
        StepController.exact { k with qold := back } := by
    unfold StepController.recorded
    split
    next => exact ⟨qold, rfl⟩
    next => exact ⟨_, rfl⟩
  exact ⟨⟨⟨hb.sizes.2, rfl⟩, ⟨hb.positive.2, hk.nextSize_pos hb.positive.2 _⟩, hkept⟩, rfl⟩

/-- The error and the sizes after a step. -/
theorem Boundary.step (hk : k.Accepted) (hb : Boundary k s alphaPrevious alpha)
    (h : Stepped c s t) (hz : s.ext.beforePrevious.Reads z) (hy : s.u.Reads y) (hx : t.u.Reads x)
    (hscale : HasScale k y x) :
    Boundary k t alpha (k.nextSize alpha (k.errorOf x y z alpha alphaPrevious)) ∧
      t.ext.error = real (k.errorOf x y z alpha alphaPrevious) :=
  Boundary.adapted (s := { t with ext := s.ext }) hk ⟨hb.sizes, hb.positive, hb.controller⟩
    h.adapted hz (h.previous ▸ hy) hx hscale

omit [RCLike 𝕜] [Entry Exact K] [ExactEntry 𝕜 K] in
theorem Boundary.shift (hb : Boundary k s alphaPrevious alpha) :
    Checked.div 1.0 s.ext.alpha = .ok (real (1 / alpha)) := by
  have hone : (1.0 : Exact) = real 1 := by norm_num
  rw [hb.sizes.2, hone]
  exact StepController.div_real hb.positive.2.ne'

variable (𝕜) in
include 𝕜 in
/-- The steps after one by elimination are by elimination. -/
theorem Boundary.byElimination (hframes : c.backend.Frames) (hp : c.problem.ZeroFilled)
    (hb : Boundary k s alphaPrevious alpha) (h : Stepped c s t) (hs : ByElimination c s) :
    ByElimination c t := by
  obtain ⟨shift, J, A, hshift, hsolved, hmethod⟩ := h.solved
  obtain rfl := Except.ok.inj (hshift.symm.trans hb.shift)
  obtain ⟨N, -, -, hdirect⟩ := hsolved.reads 𝕜 hp hs rfl
  exact .inl ⟨_, hmethod hframes, hdirect⟩

/-- A step between finite iterates is one of the recurrence. -/
theorem Boundary.obeys (hk : k.Accepted) (hB : c.backend.Eliminates 𝕜) (hp : c.problem.ZeroFilled)
    (hb : Boundary k s alphaPrevious alpha) (hanswered : c.problem.Answered s.u s.fu)
    (h : Stepped c s t) (hfinite : t.fu.isFinite = true)
    (hz : s.ext.beforePrevious.Reads z) (hy : s.u.Reads y) (hx : t.u.Reads x)
    (hscale : HasScale k y x) (hnext : t.ext.alpha = real next) :
    Obeys c k s t z y x alphaPrevious alpha next := by
  obtain ⟨hboundary, herror⟩ := hb.step hk h hz hy hx hscale
  obtain ⟨shift, J, A, hshift, hsolved, -⟩ := h.solved
  obtain rfl := Except.ok.inj (hshift.symm.trans hb.shift)
  exact
    { before := ⟨hy, hanswered⟩
      after := ⟨hx, h.answered, hfinite⟩
      solved := ⟨J, A, hsolved, fun hs => hsolved.equation hB hp hs hy hx⟩
      error := herror
      control := Exact.real.inj (hnext.symm.trans hboundary.sizes.2)
      sizes := ⟨h.alpha.trans hb.sizes.2, hboundary.sizes.1, hnext⟩
      iterates := ⟨h.previous, h.shifts.1⟩ }

end Recurrence

/-! ## Steps that go on -/

section Going

variable {σ 𝕜 K : Type} [RCLike 𝕜] [Entry Exact K] [ExactEntry 𝕜 K] {c : Setup σ Exact K}
  {k : StepController ℝ} {r : Run σ Exact K (State Exact K)} {n : Nat} {z y x d : Fin n → 𝕜}
  {alphaPrevious alpha : ℝ}

omit [RCLike 𝕜] [ExactEntry 𝕜 K] in
/-- A direction for a matrix that can be shifted and for which the linear system answers. -/
theorem direction_answers {J A : Matrix Exact K} {w : Workspace σ Exact K} {shift : Exact}
    {Q : Vec K → Prop}
    (hmade : (c.problem.jacobianAt r.ext.jacobians r.u (some r.fu)).eval r.work = (.ok J, w))
    (hshift : Checked.div 1.0 r.ext.alpha = .ok shift) (hA : J.shift shift = .ok A)
    (hsystem : (LinearSystem.factorize c.backend A).Ends w
      (fun _ w' => (LinearSystem.solve c.backend c.problem.evaluate r.fu).Ends w' (fun du _ => Q du)
        (fun _ _ => False)) (fun _ _ => False)) :
    (direction c).Ends r (fun du t => Q du ∧ t = { r with work := t.work })
      (fun _ _ => False) := by
  simp only [direction, ends_bind, ends_get, Run.ends_onWork]
  refine ends_iff.2 ⟨fun J' w' h => ?_, fun e w' h => ?_⟩
  · cases hmade.symm.trans h
    rw [ends_ofFault_ok hshift, ends_ofFault_ok hA]
    exact hsystem.mono (fun _ w' h => h.mono (fun _ _ hdu => ⟨hdu, rfl⟩) (fun _ _ h => h))
      (fun _ _ h => h)
  · cases hmade.symm.trans h

/-- The control of exact step sizes does not fail. -/
theorem adapt_answers (hk : k.Accepted) (hb : Boundary k r alphaPrevious alpha)
    (hz : r.ext.beforePrevious.Reads z) (hy : r.previous.Reads y) (hx : r.u.Reads x)
    (hscale : HasScale k y x) :
    adapt.Ends r (fun _ t => t.stopped = r.stopped ∧ t.u = r.u) (fun _ _ => False) := by
  obtain ⟨qold, hcontroller⟩ := hb.controller
  have hestimate := estimateError_exact k hx hy hz hb.positive.2 hb.positive.1 hscale
  have hk' : StepController.Accepted { k with qold } := ⟨hk.qmin, hk.qmax, hk.gamma⟩
  obtain ⟨accepted, hupdate⟩ := StepController.update_exact hk' alpha
    (k.errorOf x y z alpha alphaPrevious)
  rw [← hb.sizes.2, ← hcontroller] at hupdate
  refine (adapt_controls ?_ hupdate).mono (fun _ t ht => ⟨ht.1, ht.2.1⟩) (fun _ _ h => h)
  rw [hcontroller, hb.sizes.1, hb.sizes.2]
  exact hestimate

/-- The run `m` is the run `r` after the move of a step to the iterate `x`. -/
structure Moved (r m : Run σ Exact K (State Exact K)) (x : Fin n → 𝕜) : Prop where
  ext : m.ext = r.ext
  previous : m.previous = r.u
  stopped : m.stopped = r.stopped
  u : m.u.Reads x

/-- A step whose direction and residual are answered, and that has not converged, goes on to adapt
its size. -/
theorem step_adapts {Q : Run σ Exact K (State Exact K) → Prop} (hy : r.u.Reads y) {f : Fin n → 𝕜}
    (hdirection : (direction c).Ends r (fun du t => du.Reads d ∧ t = { r with work := t.work })
      (fun _ _ => False))
    (hresidual : ∀ v w, v.Reads (y - d) →
      (c.problem.evaluate v).Ends w (fun fu _ => fu.Reads f) (fun _ _ => False))
    (hcheck : ∀ v fu, v.Reads (y - d) → fu.Reads f →
      (Checker.check fu v r.u).Ends r.checker (fun b _ => b = false) (fun _ _ => False))
    (hadapt : ∀ m, Moved r m (y - d) → adapt.Ends m (fun _ t => Q t) (fun _ _ => False)) :
    (step c).Ends r (fun _ t => Q t) (fun _ _ => False) := by
  refine hdirection.bind (fun du t ht => ?_) (fun _ _ h => h)
  obtain ⟨hdu, ht⟩ := ht
  rw [ht]
  have hx : (r.u - du).Reads (y - d) := hy.sub hdu
  simp only [ends_bind, ends_get, ends_modify, Run.ends_evaluate, Run.ends_moveTo]
  refine (hresidual _ _ hx).mono (fun fu w hfu => ?_) (fun _ _ h => h)
  simp only [Run.check, ends_bind, ends_get, ends_within]
  refine (hcheck _ _ hx hfu).mono (fun b checker hunmet => ?_) (fun _ _ h => h)
  subst hunmet
  simp only [Bool.false_eq_true, if_false, ends_pure]
  exact hadapt _ ⟨rfl, rfl, rfl, hx⟩

/-- A step goes on whose direction and residual are answered, and that has not converged. -/
theorem step_goes (hk : k.Accepted) (hb : Boundary k r alphaPrevious alpha)
    (hz : r.ext.beforePrevious.Reads z) (hy : r.u.Reads y) {f : Fin n → 𝕜}
    (hdirection : (direction c).Ends r (fun du t => du.Reads d ∧ t = { r with work := t.work })
      (fun _ _ => False))
    (hresidual : ∀ v w, v.Reads (y - d) →
      (c.problem.evaluate v).Ends w (fun fu _ => fu.Reads f) (fun _ _ => False))
    (hcheck : ∀ v fu, v.Reads (y - d) → fu.Reads f →
      (Checker.check fu v r.u).Ends r.checker (fun b _ => b = false) (fun _ _ => False))
    (hscale : HasScale k y (y - d)) :
    (step c).Ends r (fun _ t => t.stopped = r.stopped ∧ t.u.Reads (y - d)) (fun _ _ => False) := by
  refine step_adapts hy hdirection hresidual hcheck fun m hm => ?_
  refine (adapt_answers hk (hb.of_ext hm.ext) (hm.ext ▸ hz) (hm.previous ▸ hy) hm.u hscale).mono
    (fun _ t ht => ⟨ht.1.trans hm.stopped, ?_⟩) (fun _ _ h => h)
  rw [ht.2]
  exact hm.u

end Going

/-! ## Runs -/

section Runs

variable {σ 𝕜 K : Type} [RCLike 𝕜] [Entry Exact K] [ExactEntry 𝕜 K] {a : PseudoTransient Exact}
  {c : Setup σ Exact K} {k : StepController ℝ} {world : σ} {r₀ : Run σ Exact K (State Exact K)}
  {s : Nat → Run σ Exact K (State Exact K)} {n i : Nat} {initial : ℝ}

omit [ExactEntry 𝕜 K] [RCLike 𝕜] in
theorem stepped_of_course (hs : Run.Course a.strategy c r₀ s n) (hi : i < n) :
    Stepped c (s i) (s (i + 1)) ∧ (s (i + 1)).IsFinite := by
  obtain ⟨printed, hstep⟩ := hs.step i hi
  exact exists_stepped hstep (hs.going i hi)

omit [ExactEntry 𝕜 K] [RCLike 𝕜] in
theorem answered_of_course (hstart : Run.start a.strategy c world = .ok r₀)
    (hs : Run.Course a.strategy c r₀ s n) (hi : i ≤ n) :
    c.problem.Answered (s i).u (s i).fu := by
  cases i with
  | zero =>
    rw [hs.start]
    exact Run.start_answered hstart
  | succ i => exact (stepped_of_course hs hi).1.answered

omit [ExactEntry 𝕜 K] [RCLike 𝕜] in
theorem size_of_course (hstart : Run.start a.strategy c world = .ok r₀)
    (hs : Run.Course a.strategy c r₀ s n) (hi : i ≤ n) : (s i).u.size = c.problem.size := by
  have hguess := (Run.start_answered hstart).size_eq
  rw [Run.start_u hstart] at hguess
  exact (answered_of_course hstart hs hi).size_eq.trans hguess.symm

variable (𝕜) in
/-- Where a step goes on, the iterate before it is finite as well. -/
theorem reads_of_course (hstart : Run.start a.strategy c world = .ok r₀)
    (hs : Run.Course a.strategy c r₀ s n) (hn : 0 < n) (hi : i ≤ n) :
    ∃ x : Fin c.problem.size → 𝕜, (s i).u.Reads x := by
  refine Vec.reads_of_isFinite ?_ (size_of_course hstart hs hi)
  cases i with
  | zero =>
    obtain ⟨hstepped, hfinite⟩ := stepped_of_course hs hn
    obtain ⟨_, _, _, -, hsolved, -⟩ := hstepped.solved
    have hsize := (size_of_course hstart hs hn).trans (size_of_course hstart hs hi).symm
    have hu := hfinite.1
    rw [hsolved.u] at hsize hu
    exact Vec.isFinite_of_sub 𝕜 hu hsize
  | succ i => exact (stepped_of_course hs hi).2.1

theorem beforePrevious_of_course (hstart : Run.start a.strategy c world = .ok r₀)
    (hs : Run.Course a.strategy c r₀ s n) (hi : i ≤ n) :
    (s i).ext.beforePrevious = (s (i - 1)).u := by
  cases i with
  | zero =>
    rw [Nat.zero_sub, hs.start]
    exact (start_ok (Run.start_prepared hstart)).beforePrevious.trans (Run.start_u hstart).symm
  | succ i => exact (stepped_of_course hs hi).1.shifts.1

variable (𝕜) in
/-- The tolerances of the errors of the steps are not zero. -/
def Scaled (c : Setup σ Exact K) (k : StepController ℝ)
    (s : Nat → Run σ Exact K (State Exact K)) (n : Nat) : Prop :=
  ∀ i < n, ∀ y x : Fin c.problem.size → 𝕜, (s i).u.Reads y → (s (i + 1)).u.Reads x → HasScale k y x

theorem boundary_of_course (hinitial : a.initial = real initial)
    (hcontroller : a.controller = k.exact) (ha : a.refusal? = none) (hk : k.Accepted)
    (hstart : Run.start a.strategy c world = .ok r₀) (hs : Run.Course a.strategy c r₀ s n)
    (hscale : Scaled 𝕜 c k s n) (hi : i ≤ n) :
    ∃ alphaPrevious alpha, Boundary k (s i) alphaPrevious alpha := by
  induction i with
  | zero =>
    rw [hs.start]
    exact ⟨_, _, (Boundary.of_start hinitial hcontroller ha hstart).1⟩
  | succ i ih =>
    have hn : 0 < n := Nat.zero_lt_of_lt hi
    obtain ⟨alphaPrevious, alpha, hb⟩ := ih (Nat.le_of_succ_le hi)
    obtain ⟨y, hy⟩ := reads_of_course 𝕜 hstart hs hn (Nat.le_of_succ_le hi)
    obtain ⟨x, hx⟩ := reads_of_course 𝕜 hstart hs hn hi
    obtain ⟨z, hz⟩ :=
      reads_of_course 𝕜 hstart hs hn ((i.sub_le 1).trans (Nat.le_of_succ_le hi))
    rw [← beforePrevious_of_course hstart hs (Nat.le_of_succ_le hi)] at hz
    exact ⟨_, _, (hb.step hk (stepped_of_course hs hi).1 hz hy hx (hscale i hi y x hy hx)).1⟩

variable (𝕜) in
theorem exists_iterates (hstart : Run.start a.strategy c world = .ok r₀)
    (hs : Run.Course a.strategy c r₀ s n) :
    ∃ u : Nat → Fin c.problem.size → 𝕜, 0 < n → ∀ i ≤ n, (s i).u.Reads (u i) := by
  have hiterates : ∀ i, ∃ x : Fin c.problem.size → 𝕜, 0 < n → i ≤ n → (s i).u.Reads x := by
    intro i
    by_cases hi : 0 < n ∧ i ≤ n
    · obtain ⟨x, hx⟩ := reads_of_course 𝕜 hstart hs hi.1 hi.2
      exact ⟨x, fun _ _ => hx⟩
    · exact ⟨0, fun hn hle => absurd ⟨hn, hle⟩ hi⟩
  choose u hu using hiterates
  exact ⟨u, fun hn i => hu i hn⟩

/-- The sizes of a run as one sequence, which each step shifts by one. -/
theorem exists_sizes (hinitial : a.initial = real initial)
    (hcontroller : a.controller = k.exact) (ha : a.refusal? = none) (hk : k.Accepted)
    (hstart : Run.start a.strategy c world = .ok r₀) (hs : Run.Course a.strategy c r₀ s n)
    (hscale : Scaled 𝕜 c k s n) :
    ∃ alpha : Nat → ℝ, alpha 0 = initial ∧ alpha 1 = initial ∧
      ∀ i ≤ n, Boundary k (s i) (alpha i) (alpha (i + 1)) := by
  have hsizes : ∀ i, ∃ alphaPrevious alpha, i ≤ n → Boundary k (s i) alphaPrevious alpha := by
    intro i
    by_cases hi : i ≤ n
    · obtain ⟨alphaPrevious, alpha, hb⟩ :=
        boundary_of_course hinitial hcontroller ha hk hstart hs hscale hi
      exact ⟨alphaPrevious, alpha, fun _ => hb⟩
    · exact ⟨0, 0, fun h => absurd h hi⟩
  choose β γ hγ using hsizes
  obtain ⟨⟨⟨hzero, hone⟩, -, -⟩, -⟩ := Boundary.of_start hinitial hcontroller ha hstart
  rw [← hs.start] at hzero hone
  refine ⟨fun i => i.casesOn initial γ, rfl, ?_, fun i hi => ?_⟩
  · exact Exact.real.inj ((hγ 0 n.zero_le).sizes.2.symm.trans hone)
  · have hprevious : β i = i.casesOn initial γ := by
      cases i with
      | zero => exact Exact.real.inj ((hγ 0 hi).sizes.1.symm.trans hzero)
      | succ i =>
        have hshifted := (stepped_of_course hs hi).1.shifts.2
        rw [(hγ i (Nat.le_of_succ_le hi)).sizes.2] at hshifted
        exact Exact.real.inj ((hγ (i + 1) hi).sizes.1.symm.trans hshifted)
    change Boundary k (s i) (i.casesOn initial γ) (γ i)
    rw [← hprevious]
    exact hγ i hi

/-- **The recurrence.**  A run whose steps have neither failed nor converged, and in which no
tolerance of an error is zero, has iterates `u` and step sizes `alpha`, with the initial size as the
first two, that obey the recurrence in every step; the iterate before the initial one is the initial
one. If its first linear system is solved by elimination, all of them are. -/
theorem run_refines (a : PseudoTransient Exact) (c : Setup σ Exact K) (world : σ)
    (hinitial : a.initial = real initial) (hcontroller : a.controller = k.exact)
    (ha : a.refusal? = none) (hk : a.controller.refusal? = none)
    (hB : c.backend.Eliminates 𝕜) (hp : c.problem.ZeroFilled)
    (hframes : c.backend.Frames) (hstart : Run.start a.strategy c world = .ok r₀)
    (hs : Run.Course a.strategy c r₀ s n) (hscale : Scaled 𝕜 c k s n) :
    ∃ (u : Nat → Fin c.problem.size → 𝕜) (alpha : Nat → ℝ),
      alpha 0 = initial ∧ alpha 1 = initial ∧ (∀ i ≤ n + 1, 0 < alpha i) ∧
        (ByElimination c r₀ → ∀ i ≤ n, ByElimination c (s i)) ∧
        ∀ i < n, Obeys c k (s i) (s (i + 1)) (u (i - 1)) (u i) (u (i + 1)) (alpha i)
          (alpha (i + 1)) (alpha (i + 2)) := by
  have hk' : k.Accepted := StepController.accepted_of_refusal (hcontroller ▸ hk)
  obtain ⟨u, hu⟩ := exists_iterates 𝕜 hstart hs
  obtain ⟨alpha, hzero, hone, halpha⟩ :=
    exists_sizes hinitial hcontroller ha hk' hstart hs hscale
  refine ⟨u, alpha, hzero, hone, fun i hi => ?_, fun hdirect i hi => ?_, fun i hi => ?_⟩
  · cases i with
    | zero => exact (halpha 0 n.zero_le).positive.1
    | succ i => exact (halpha i (Nat.le_of_succ_le_succ hi)).positive.2
  · induction i with
    | zero => exact hs.start ▸ hdirect
    | succ i ih =>
      have hle := Nat.le_of_succ_le hi
      exact (halpha i hle).byElimination 𝕜 hframes hp (stepped_of_course hs hi).1 (ih hle)
  · have hreads := hu (Nat.zero_lt_of_lt hi)
    obtain ⟨hstepped, -, hfu⟩ := stepped_of_course hs hi
    have hz := hreads (i - 1) ((i.sub_le 1).trans hi.le)
    rw [← beforePrevious_of_course hstart hs hi.le] at hz
    have hy := hreads i hi.le
    have hx := hreads (i + 1) hi
    exact (halpha i hi.le).obeys hk' hB hp (answered_of_course hstart hs hi.le) hstepped hfu hz hy
      hx (hscale i hi _ _ hy hx) (halpha (i + 1) hi).sizes.2

end Runs

/-! ## A linear residual of one unknown -/

/-- A residual with its root at zero, from which the flow against it leads away. -/
noncomputable def fleeingProblem : Problem Unit Exact Exact where
  residual := .returning fun t w => (.ok ⟨t.shape, t.entries.map (-·)⟩, w)
  guess := ⟨[1], .ofList [real 1]⟩
  jacobian := some fun _ w => (.ok (.number (real (-1))), w)

noncomputable def fleeingSetup : Setup Unit Exact Exact where
  problem := fleeingProblem
  options :=
    { abstol := 1e-8, reltol := 1e-8, termination := { Termination.standard with mode := .abs }
      norm := Vec.norm }
  backend := .standard

/-- The strategy with a first step of the given size. -/
noncomputable def ofSize (initial : ℝ) (choice : SystemChoice Exact) : PseudoTransient Exact where
  initial := real initial
  controller := .standard
  choice := choice

theorem fleeing_evaluate {v : Vec Exact} {x : Fin 1 → ℝ} (hv : v.Reads x)
    (w : Workspace Unit Exact Exact) :
    (fleeingProblem.evaluate v).Ends w (fun fu _ => fu.Reads fun i => -x i)
      (fun _ _ => False) := by
  rw [hv]
  exact rfl

theorem fleeing_jacobian (s : JacobianSettings Exact) {v fu : Vec Exact} {x f : Fin 1 → ℝ}
    (hv : v.Reads x) (hfu : fu.Reads f) (w : Workspace Unit Exact Exact) :
    (fleeingProblem.jacobianAt s v (some fu)).Ends w
      (fun J w' => J = .dense (.ofRow [real (-1)]) ∧ w'.system = w.system) (fun _ _ => False) := by
  rw [hv, hfu]
  exact ⟨rfl, rfl⟩

theorem standard_refusal : (StepController.standard : StepController Exact).refusal? = none := by
  unfold StepController.refusal?
  simp only [StepController.standard]
  norm_num

theorem ofSize_refusal {initial : ℝ} (hinitial : 0 < initial) (choice : SystemChoice Exact) :
    (ofSize initial choice).refusal? = none := by
  unfold refusal? ofSize
  norm_num [hinitial]

/-- The start of a run with the residual that leads away. -/
theorem fleeing_starts (initial : ℝ) {choice : SystemChoice Exact}
    {system : LinearSystem Exact Exact} (hsystem : choice.system false = .ok system) :
    ∃ r, Run.start (ofSize initial choice).strategy fleeingSetup () = .ok r ∧
      r.work.system = system ∧ r.u.Reads (fun _ : Fin 1 => (1 : ℝ)) ∧
      r.fu.Reads (fun _ : Fin 1 => (-1 : ℝ)) ∧ r.checker.settings.mode = .abs ∧
      r.checker.abstol = 1e-8 ∧ r.stopped = false := by
  obtain ⟨scheme, hscheme⟩ : ∃ scheme, Scheme.ofName "2-point" = .ok scheme := ⟨_, rfl⟩
  have hprepare : prepare fleeingSetup.problem (ofSize initial choice).scheme
      (ofSize initial choice).choice (ofSize initial choice).concrete = .ok (system, scheme) := by
    have hscheme' : Scheme.ofName (ofSize initial choice).scheme = .ok scheme := hscheme
    have hsystem' : (ofSize initial choice).choice.system
        (fleeingSetup.problem.jacobian.isNone && !(ofSize initial choice).concrete) =
          .ok system := hsystem
    rw [prepare, hscheme']
    simp only [bind, Except.bind, hsystem']
    rfl
  obtain ⟨ext, hext⟩ : ∃ ext, (ofSize initial choice).start fleeingSetup
      fleeingProblem.guess.entries (.ofList [real (-1)]) = .ok (system, ext) := by
    unfold start
    rw [hprepare]
    exact ⟨_, rfl⟩
  exact ⟨_, Run.Started.start_eq ⟨rfl, fun _ => rfl, hext, by decide, rfl⟩, rfl, rfl, rfl, rfl,
    rfl, rfl⟩

theorem hasScale_of_pos {n : Nat} {k : StepController ℝ} {y x : Fin n → ℝ} (habstol : 0 < k.abstol)
    (hreltol : 0 ≤ k.reltol) : HasScale k y x := fun i => by
  have := norm_nonneg (y i)
  positivity

theorem fleeing_scale {y x : Fin 1 → ℝ} : HasScale .standard y x :=
  hasScale_of_pos (by norm_num [StepController.standard]) (by norm_num [StepController.standard])

/-- The matrix of the first step. -/
noncomputable def fleeingMatrix (initial : ℝ) : FieldMatrix ℝ 1 1 :=
  FieldMatrix.addDiagonal !![-1] fun _ => 1 / initial

/-- From `w` on the linear system for a matrix answers the numbers `d` for a right-hand side. -/
def Answers (D : Dense Exact) (b : Vec Exact) (w : Workspace Unit Exact Exact) (d : Fin 1 → ℝ) :
    Prop :=
  (LinearSystem.factorize fleeingSetup.backend (.dense D)).Ends w
    (fun _ w' =>
      (LinearSystem.solve fleeingSetup.backend fleeingSetup.problem.evaluate b).Ends w'
        (fun du _ => du.Reads d) (fun _ _ => False))
    (fun _ _ => False)

/-- The first step goes on where its linear system is answered. -/
theorem fleeing_goes {initial : ℝ} (hinitial : 0 < initial) (choice : SystemChoice Exact)
    {system : LinearSystem Exact Exact} (hsystem : choice.system false = .ok system)
    {d : Fin 1 → ℝ} (hd : (1e-8 : ℝ) < |-(1 - d 0)|)
    (hsolves : ∀ (D : Dense Exact) (b : Vec Exact) (w : Workspace Unit Exact Exact),
      D.Reads (fleeingMatrix initial) → b.Reads (fun _ : Fin 1 => (-1 : ℝ)) →
        w.system = system → Answers D b w d) :
    ∃ r t, Run.start (ofSize initial choice).strategy fleeingSetup () = .ok r ∧
      r.work.system = system ∧ r.u.Reads (fun _ : Fin 1 => (1 : ℝ)) ∧
      r.fu.Reads (fun _ : Fin 1 => (-1 : ℝ)) ∧
      (Run.step (ofSize initial choice).strategy fleeingSetup).eval r = (.ok (), t) ∧
      t.stopped = false ∧ t.u.Reads ((fun _ : Fin 1 => (1 : ℝ)) - d) := by
  obtain ⟨r, hstart, hr, hu, hfu, hmode, habstol, hstopped⟩ := fleeing_starts initial hsystem
  obtain ⟨hboundary, hbefore⟩ := Boundary.of_start (a := ofSize initial choice) (k := .standard)
    rfl rfl (ofSize_refusal hinitial choice) hstart
  have hk : StepController.Accepted .standard :=
    StepController.accepted_of_refusal standard_refusal
  obtain ⟨J, w, hmade, rfl, hw⟩ := (fleeing_jacobian r.ext.jacobians hu hfu r.work).exists_ok
  have hJ : (Matrix.dense (.ofRow [real (-1)])).Reads (!![-1] : FieldMatrix ℝ 1 1) := ⟨rfl, rfl⟩
  obtain ⟨D, hshift⟩ : ∃ D : Dense Exact, (Matrix.dense (.ofRow [real (-1)])).shift
      (real (1 / initial)) = .ok (.dense D) := ⟨_, rfl⟩
  have hD : D.Reads (fleeingMatrix initial) := hJ.shift hshift
  have hdirection : (direction fleeingSetup).Ends r
      (fun du t => du.Reads d ∧ t = { r with work := t.work }) (fun _ _ => False) :=
    direction_answers hmade hboundary.shift hshift (hsolves D r.fu w hD hfu (hw.trans hr))
  obtain ⟨_, t, ht, hgoes, hx⟩ := (step_goes hk hboundary (hbefore ▸ hu) hu hdirection
    (fun v w hv => fleeing_evaluate hv w)
    (fun v fu hv hfu => Checker.entry_check hmode habstol hv hfu hd r.u)
    fleeing_scale).exists_ok
  refine ⟨r, _, hstart, hr, hu, hfu, Run.step_of_ok ht, ?_, ?_⟩
  · rw [Run.recorded_stopped]
    exact hgoes.trans hstopped
  · rw [Run.recorded_u]
    exact hx

theorem fleeing_eliminates {D : Dense Exact} {b : Vec Exact} {w : Workspace Unit Exact Exact}
    (hD : D.Reads (fleeingMatrix (1 / 2))) (hb : b.Reads (fun _ : Fin 1 => (-1 : ℝ)))
    (hw : w.system.method = none) : Answers D b w fun _ => -1 := by
  have hentry : fleeingMatrix (1 / 2) 0 0 = 1 := by
    norm_num [fleeingMatrix, FieldMatrix.addDiagonal_apply]
  let A : Matrix Exact Exact := .dense D
  have hA : A.Reads (fleeingMatrix (1 / 2)) := hD
  have hdirect : (w.system.method.getD (SolveMethod.forMatrix A)).IsDirect := by
    rw [hw]
    exact hA.forMatrix_isDirect
  have hfactorizes := LinearSystem.factorize_single hD (by rw [hentry]; norm_num)
    (by rw [hw]; rfl)
  have hsolves := LinearSystem.eliminates (Backend.standard_eliminates ℝ) hA hb
    fleeingSetup.problem.evaluate hdirect
  refine (hfactorizes.and hsolves).mono (fun _ w' h => ?_) (fun _ _ h => h.1)
  refine h.2.mono (fun du _ hdu => ?_) (fun _ _ h => h)
  obtain ⟨y, hy, hsolution⟩ := hdu
  have hrow : fleeingMatrix (1 / 2) 0 0 * y 0 = -1 := by
    simpa [Matrix.mulVec, dotProduct] using congrFun hsolution 0
  rw [hentry] at hrow
  obtain rfl : y = fun _ => -1 := by
    funext i
    rw [Fin.fin_one_eq_zero i]
    linarith
  exact hy

theorem sweeps_single (n : Nat) (p : LeastSquares.Pair Exact) :
    LeastSquares.sweeps (R := Exact) n [p] = [p] := by
  induction n with
  | zero => rfl
  | succ n ih =>
    rw [LeastSquares.sweeps]
    simpa [LeastSquares.sweep, LeastSquares.turnAll] using ih

/-- A matrix of one zero has no singular values that count. -/
theorem singular_zero {D : Dense Exact} (hD : D.Reads (0 : FieldMatrix ℝ 1 1)) :
    LeastSquares.singular (R := Exact) D = [] := by
  have hzero : (0.0 : Exact) = real 0 := by norm_num
  have hnorm : (Vec.ofList [real 0] : Vec Exact).norm = real 0 := by
    change Scalar.sqrt ((0.0 : Exact) + (real 0 * real 0 + real 0 * real 0)) = real 0
    rw [hzero, real_mul, real_add, real_add, mul_zero, add_zero, add_zero, sqrt_real le_rfl,
      Real.sqrt_zero]
  have hlargest : Scalar.greatest (0.0 : Exact) (real 0) = real 0 := by
    rw [hzero]
    exact ite_self _
  have hsmall : ¬Scalar.epsilon * real 0 < real 0 := by
    rw [epsilon_eq, real_mul, mul_zero]
    exact lt_irrefl (0 : ℝ)
  obtain ⟨source, hpairs⟩ : ∃ source, LeastSquares.pairs (R := Exact) D =
      [⟨.ofList [real 0], source⟩] := by
    obtain ⟨cols, rows, rect⟩ := D
    obtain rfl : cols = 1 := hD.cols
    obtain rfl : rows = [[real 0]] := hD.rows
    exact ⟨_, rfl⟩
  rw [LeastSquares.singular, hpairs, sweeps_single]
  simp only [List.map_cons, List.map_nil, hnorm, List.foldl_cons, List.foldl_nil, hlargest]
  simp [hsmall]

/-- The least squares solution for a matrix of one zero is zero. -/
theorem leastSquares_zero {D : Dense Exact} (hD : D.Reads (0 : FieldMatrix ℝ 1 1))
    (b : Vec Exact) : (LeastSquares.solve D b).Reads (fun _ : Fin 1 => (0 : ℝ)) := by
  have hsize : Scalar.same (LeastSquares.largestEntry (R := Exact) D) 0.0 = true := by
    have hzero : (0.0 : Exact) = real 0 := by norm_num
    have hentry : LeastSquares.largestEntry (R := Exact) D = real |(0 : ℝ)| := by
      rw [LeastSquares.largestEntry, hD.rows]
      rfl
    rw [hzero, same_iff, hentry, abs_zero]
  have htall : D.cols ≤ D.height := by rw [hD.cols, hD.height]
  have hreal : (Dense.isReal D && b.isReal) = true := by
    rw [Bool.and_eq_true_iff]
    exact ⟨List.all_eq_true.2 fun row _ => Vec.isReal_exact row, b.isReal_exact⟩
  rw [LeastSquares.solve]
  simp only [hsize, Bool.true_or, if_true]
  have hstart : (Entry.zeroAs true : Exact) = number (0 : ℝ) := Exact.zero_eq
  rw [LeastSquares.solveModerate, if_pos htall, singular_zero hD, hD.cols, hreal, hstart]
  exact Vec.reads_replicate 1 (0 : ℝ)

theorem fleeing_leastSquares {D : Dense Exact} {b : Vec Exact} {w : Workspace Unit Exact Exact}
    (hD : D.Reads (fleeingMatrix 1)) (hb : b.Reads (fun _ : Fin 1 => (-1 : ℝ)))
    (hw : w.system.method = some .lstsq) : Answers D b w fun _ => 0 := by
  have hzero : fleeingMatrix 1 = 0 := by
    ext i j
    fin_cases i
    fin_cases j
    norm_num [fleeingMatrix, FieldMatrix.addDiagonal_apply]
  rw [hzero] at hD
  have hanswer := leastSquares_zero hD b
  have hsize : ¬b.size ≠ D.height := by rw [hb.size, hD.height, not_not]
  have hfinite : (Dense.isFinite D && b.isFinite) = true := by
    rw [Dense.Reads.isFinite hD, hb.isFinite]
    rfl
  simp only [Answers, LinearSystem.factorize, ends_bind, ends_get, hw, Option.getD_some,
    LinearSystem.change, ends_modify]
  refine (ends_ofFault_ok rfl).2 ?_
  refine (LinearSystem.solve_answers rfl rfl ?_ hanswer.isFinite).mono (fun du _ hdu => ?_)
    (fun _ _ h => h)
  · simp only [LinearSystem.solveBy, LinearSystem.solveLeastSquares, if_neg hsize, hfinite]
    rfl
  · rw [hdu]
    exact hanswer

theorem fleeing_refines :
    (ofSize (1 / 2) .byMatrix).initial = real (1 / 2) ∧
      (ofSize (1 / 2) .byMatrix).controller = StepController.exact .standard ∧
      (ofSize (1 / 2) .byMatrix).refusal? = none ∧
      (ofSize (1 / 2) .byMatrix).controller.refusal? = none ∧
      fleeingSetup.backend.Eliminates ℝ ∧ fleeingProblem.ZeroFilled ∧
      fleeingSetup.backend.Frames ∧
      ∃ r₀ s, Run.start (ofSize (1 / 2) .byMatrix).strategy fleeingSetup () = .ok r₀ ∧
        Run.Course (ofSize (1 / 2) .byMatrix).strategy fleeingSetup r₀ s 1 ∧
        Scaled ℝ fleeingSetup .standard s 1 ∧ ByElimination fleeingSetup r₀ ∧
        ∃ (u : Nat → Fin 1 → ℝ) (alpha : Nat → ℝ),
          alpha 0 = 1 / 2 ∧ alpha 1 = 1 / 2 ∧ (∀ i ≤ 1 + 1, 0 < alpha i) ∧
            (ByElimination fleeingSetup r₀ → ∀ i ≤ 1, ByElimination fleeingSetup (s i)) ∧
            ∀ i < 1, Obeys fleeingSetup .standard (s i) (s (i + 1)) (u (i - 1)) (u i) (u (i + 1))
              (alpha i) (alpha (i + 1)) (alpha (i + 2)) := by
  have haccepted : (ofSize (1 / 2) .byMatrix).refusal? = none := ofSize_refusal one_half_pos _
  have hfilled : fleeingProblem.ZeroFilled := by
    rintro jac hjac x w A w' h
    cases hjac
    cases h
  obtain ⟨r₀, t, hstart, hsystem, -, -, hstep, hgoing, -⟩ :=
    fleeing_goes (d := fun _ => -1) one_half_pos .byMatrix rfl (by norm_num)
      fun D b w hD hb hw => fleeing_eliminates hD hb (by rw [hw]; rfl)
  have hcourse := Run.Course.single hstep hgoing
  have hscale : Scaled ℝ fleeingSetup .standard (fun i => if i = 0 then r₀ else t) 1 :=
    fun _ _ _ _ _ _ => fleeing_scale
  exact ⟨rfl, rfl, haccepted, standard_refusal, Backend.standard_eliminates ℝ, hfilled,
    Backend.standard_frames, r₀, _, hstart, hcourse, hscale, .inr ⟨by rw [hsystem]; rfl, rfl⟩,
    run_refines (ofSize (1 / 2) .byMatrix) fleeingSetup () rfl rfl haccepted standard_refusal
      (Backend.standard_eliminates ℝ) hfilled Backend.standard_frames hstart hcourse hscale⟩

theorem fleeing_unsolved :
    (ofSize 1 (.named "lstsq")).refusal? = none ∧
      (ofSize 1 (.named "lstsq")).controller.refusal? = none ∧
      ∃ r t, Run.start (ofSize 1 (.named "lstsq")).strategy fleeingSetup () = .ok r ∧
        (Run.step (ofSize 1 (.named "lstsq")).strategy fleeingSetup).eval r = (.ok (), t) ∧
        t.stopped = false ∧ r.ext.alpha = real 1 ∧
        (∃ J w, (fleeingProblem.jacobianAt r.ext.jacobians r.u (some r.fu)).eval r.work =
          (.ok J, w) ∧ J.Reads (!![-1] : FieldMatrix ℝ 1 1)) ∧
        ∃ y x f : Fin 1 → ℝ, r.u.Reads y ∧ t.u.Reads x ∧ r.fu.Reads f ∧ HasScale .standard y x ∧
          FieldMatrix.addDiagonal !![-1] (fun _ => (1 / 1 : ℝ)) *ᵥ (y - x) ≠ f := by
  obtain ⟨r, t, hstart, hsystem, hu, hfu, hstep, hgoing, hx⟩ :=
    fleeing_goes (d := fun _ => 0) one_pos (.named "lstsq") rfl (by norm_num)
      fun D b w hD hb hw => fleeing_leastSquares hD hb (by rw [hw]; rfl)
  have haccepted : (ofSize 1 (.named "lstsq")).refusal? = none :=
    ofSize_refusal one_pos _
  obtain ⟨hboundary, -⟩ := Boundary.of_start (a := ofSize 1 (.named "lstsq"))
    (k := .standard) rfl rfl haccepted hstart
  obtain ⟨J, w, hmade, rfl, -⟩ := (fleeing_jacobian r.ext.jacobians hu hfu r.work).exists_ok
  refine ⟨haccepted, standard_refusal, r, t, hstart, hstep, hgoing, hboundary.sizes.2,
    ⟨_, w, hmade, rfl, rfl⟩, _, _, _, hu, hx, hfu, fleeing_scale, fun h => ?_⟩
  have hrow := congrFun h 0
  norm_num [Matrix.mulVec, dotProduct, FieldMatrix.addDiagonal_apply] at hrow

end PseudoTransient

end RootFinding
