import RootFinding.Proofs.Statistics
import RootFinding.Proofs.Uphill

/-!
# The linear systems of Levenberg-Marquardt runs

What holds between the steps of a Levenberg-Marquardt run over the numbers of a field, and what the
velocity of a step leaves of the damped equations that it is to solve.

* `LevenbergMarquardt.Between`: what holds between the steps. `LevenbergMarquardt.between_of_leads`:
  so it does wherever a run gets without a failure.
* `LevenbergMarquardt.Solves`: what the linear system of a step leaves of its equations.
  `LevenbergMarquardt.Between.solves`: nothing, by elimination.
-/

open scoped Matrix

namespace RootFinding

open Action Exact ExactEntry

namespace LevenbergMarquardt

variable {σ 𝕜 K : Type} [RCLike 𝕜] [Entry Exact K] [ExactEntry 𝕜 K] [ExactParts 𝕜 K]
  {a : LevenbergMarquardt Exact} {c : Setup σ Exact K}
  {r₀ r s t : Run σ Exact K (State Exact K)} {J A : Matrix Exact K} {v fu : Vec K}
  {w : Workspace σ Exact K} {taken : Bool} {damping increase decrease floor b : ℝ}

/-! ## Between the steps -/

variable (𝕜) in
/-- What holds between the steps: besides what does not depend on the numbers, the damping and the
scaling are positive, and a model that is kept is one of numbers. -/
structure Between (a : LevenbergMarquardt Exact) (c : Setup σ Exact K) (floor : ℝ)
    (r : Run σ Exact K (State Exact K)) : Prop where
  level : Level a c r
  damping : ∃ x : ℝ, 0 < x ∧ r.ext.damping = real x
  scaling : ∃ d : Fin c.problem.size → 𝕜, r.ext.scaling.Reads d ∧ ∀ i, floor ≤ RCLike.re (d i)
  kept : r.ext.renew = false → ∃ J A, ∃ M : FieldMatrix 𝕜 r.fu.size c.problem.size,
    r.work.jacobian = some J ∧ J.Reads M ∧ r.ext.gram = some A ∧ A.Reads (Mᵀ * M)

variable (𝕜) in
omit [ExactParts 𝕜 K] in
theorem Between.of_start (hreal : a.HasReals damping increase decrease floor)
    (ha : a.refusal? = none) {world : σ} (h : Run.start a.strategy c world = .ok r₀) :
    Between 𝕜 a c floor r₀ ∧ r₀.error = none ∧
      c.problem.size = Tensor.sizeOf c.problem.guess.shape := by
  obtain ⟨hdamping, -, -, -⟩ := hreal.accepted ha
  have hprepared := start_ok (Run.start_prepared h)
  have hscaling : r₀.ext.scaling.Reads fun _ : Fin c.problem.size => (floor : 𝕜) := by
    rw [hprepared.scaling, hreal.scaling, ExactEntry.ofReal]
    exact Vec.reads_replicate _ _
  have hsize := (Run.start_answered h).size_eq
  rw [Run.start_u h] at hsize
  exact ⟨⟨.of_start h, ⟨damping, hdamping, hprepared.damping.trans hreal.damping⟩,
    ⟨_, hscaling, fun _ => (RCLike.ofReal_re floor).ge⟩,
    fun hkept => absurd (hprepared.renew.symm.trans hkept) (by decide)⟩, Run.start_error h, hsize⟩

/-- The model of a step is one of numbers, whether it is kept or made, and the scaling does not fall
below its floor. -/
theorem Between.modelled (hp : c.problem.ZeroFilled) (hr : Between 𝕜 a c floor r)
    (h : Modelled c r J A s) :
    ∃ (M : FieldMatrix 𝕜 r.fu.size c.problem.size) (d : Fin c.problem.size → 𝕜),
      J.Reads M ∧ A.Reads (Mᵀ * M) ∧ s.ext.scaling.Reads d ∧ ∀ i, floor ≤ RCLike.re (d i) := by
  obtain ⟨d, hd, hfloor⟩ := hr.scaling
  cases h with
  | kept hrenew stored gram =>
    obtain ⟨J', A', M, hstored, hM, hgram, hA⟩ := hr.kept hrenew
    obtain rfl : J' = J := Option.some.inj (hstored.symm.trans stored)
    obtain rfl : A' = A := Option.some.inj (hgram.symm.trans gram)
    exact ⟨M, d, hM, hA, hd, hfloor⟩
  | renewed w hrenew made stored gram =>
    have hformed : c.problem.isMatrixFree r.ext.jacobians = false := by
      simp [Problem.isMatrixFree, hr.level.concrete]
    have hreads := (Problem.jacobianAt_reads hp _ hr.level.size r.fu r.work).ok made
    obtain ⟨M, hM⟩ :=
      hreads.resolve_right fun h => Bool.false_ne_true (hformed.symm.trans h.1)
    obtain ⟨e, he, hle⟩ := hd.maximum hM.gram.diagonal
    exact ⟨M, e, hM, by rw [gram]; exact hM.gram, he, fun i => (hfloor i).trans (hle i)⟩

/-- A step that returns keeps what holds between the steps. -/
theorem Between.next (hreal : a.HasReals damping increase decrease floor)
    (ha : a.refusal? = none) (hB : c.backend.Frames) (hp : c.problem.ZeroFilled)
    (hsize : c.problem.size = Tensor.sizeOf c.problem.guess.shape) (hr : Between 𝕜 a c floor r)
    (h : Stepped a c r J A s taken t) : Between 𝕜 a c floor (Run.recorded c r.u t) := by
  obtain ⟨-, hincrease, hdecrease, -⟩ := hreal.accepted ha
  obtain ⟨x, hx, hdamping⟩ := hr.damping
  obtain ⟨M, d, hM, hA, hd, hfloor⟩ := hr.modelled hp h.modelled
  obtain ⟨gradient, velocity, hext⟩ := h.ext
  have hs := h.modelled.ext
  have hsdamping : s.ext.damping = real x := by rw [hs, hdamping]
  have hsfactor : s.ext.factor = real increase := by rw [hs, hr.level.factor, hreal.increase]
  refine ⟨h.level hsize hr.level, ?_, ⟨d, ?_, hfloor⟩, fun hrenew => ?_⟩
  · rw [Run.recorded_ext, hext]
    simp only [hsdamping, hsfactor]
    cases taken with
    | true =>
      refine ⟨x * (1 / decrease), by positivity, ?_⟩
      have hone : (1.0 : Exact) = real 1 := by norm_num
      rw [if_pos rfl, hreal.decrease, hone, Exact.real_div (by positivity), real_mul]
    | false => exact ⟨x * increase, by positivity, rfl⟩
  · rw [Run.recorded_ext, hext]
    exact hd
  · rw [Run.recorded_ext, hext] at hrenew
    obtain rfl : taken = false := hrenew
    rw [Run.recorded_fu, (h.stays rfl).2]
    refine ⟨J, A, M, ?_, hM, ?_, hA⟩
    · rw [Run.recorded_work]
      exact h.stored hB
    · rw [Run.recorded_ext, hext, hs]

/-- What holds between the steps holds wherever a run gets without a failure. -/
theorem between_of_leads (hreal : a.HasReals damping increase decrease floor)
    (ha : a.refusal? = none) (hB : c.backend.Frames) (hp : c.problem.ZeroFilled) {world : σ}
    (hstart : Run.start a.strategy c world = .ok r₀) (h : Run.Leads a.strategy c r₀ r)
    (hr : r.error = none) :
    Between 𝕜 a c floor r ∧ c.problem.size = Tensor.sizeOf c.problem.guess.shape := by
  obtain ⟨h₀, herror, hsize⟩ := Between.of_start 𝕜 hreal ha hstart
  refine ⟨h.going (a.proceeds c) herror hr h₀
    (fun s hs => ⟨⟨hs.level.size, hs.level.concrete, hs.level.factor, hs.level.loss⟩, hs.damping,
      hs.scaling, hs.kept⟩) (fun s t hs _ hstep => ?_), hsize⟩
  obtain ⟨J, A, s', taken, hstepped⟩ := (step_stepped s).ok hstep
  exact hs.next hreal ha hB hp hsize hstepped

/-! ## The linear system of a step -/

/-- The velocity of the step from `r` misses its equations by at most the given multiple of their
right-hand side. -/
def Solves (𝕜 : Type) {K : Type} [RCLike 𝕜] [Entry Exact K] [ExactEntry 𝕜 K] (c : Setup σ Exact K)
    (miss : ℝ) (r : Run σ Exact K (State Exact K)) : Prop :=
  ∀ J A s v s', (model c).eval r = (.ok (J, A), s) → (velocity c J A).eval s = (.ok v, s') →
    ∀ {m : Nat} (M : FieldMatrix 𝕜 m c.problem.size) (d : Fin c.problem.size → 𝕜)
      (f : Fin m → 𝕜) (x : ℝ), J.Reads M → r.fu.Reads f → s.ext.damping = real x →
      s.ext.scaling.Reads d → ∃ y : Fin c.problem.size → 𝕜, v.Reads y ∧
        ‖M.damped x d *ᵥ y + Mᵀ *ᵥ f‖ ≤ miss * ‖Mᵀ *ᵥ f‖

/-- The method of the linear system is one by elimination, if it has been chosen. -/
def IsDirect (r : Run σ Exact K (State Exact K)) : Prop :=
  ∀ M ∈ r.work.system.method, SolveMethod.IsDirect M

omit [RCLike 𝕜] [ExactEntry 𝕜 K] [ExactParts 𝕜 K] in
/-- A new Jacobian leaves the linear system alone. -/
theorem model_system (c : Setup σ Exact K) :
    Keeps (fun r : Run σ Exact K (State Exact K) => r.work.system) (model c) := by
  have hrenew : Keeps (fun r : Run σ Exact K (State Exact K) => r.work.system)
      (renewJacobian c) :=
    keeps_get.bind fun _ => (Run.keeps_ofWork (c.problem.jacobianAt_keeps _ _ _)).bind fun _ =>
      fun _ => rfl
  exact keeps_get.bind fun _ => hrenew.guard (keeps_get.bind fun _ => keeps_ofFault _)

omit [RCLike 𝕜] [ExactEntry 𝕜 K] [ExactParts 𝕜 K] in
/-- The linear system stays with the method that it has or takes for its matrix. -/
theorem velocity_method (hB : c.backend.Frames) (J A : Matrix Exact K)
    (s : Run σ Exact K (State Exact K)) :
    (velocity c J A).Ends s (fun _ t => t.work.system.method = some (s.work.system.method.getD
      (SolveMethod.forMatrix (A.addDiagonal (s.ext.damping • s.ext.scaling)))))
      (fun _ _ => True) := by
  simp only [velocity, ends_bind, ends_get, ends_ofFault, Run.ends_update, Run.ends_onWork,
    ends_pure]
  refine ⟨fun gradient _ => ?_, fun _ _ => trivial⟩
  refine (LinearSystem.factorize_ready _ _ _).mono (fun _ w hready => ?_) (fun _ _ h => h)
  exact ((LinearSystem.solve_model hB gradient).ends w).mono
    (fun _ _ h => (hready.of_model h).method) (fun _ _ _ => trivial)

/-- The velocity of a step with dense matrices, from the answer to its equations. -/
theorem velocity_answers (hB : c.backend.Frames) {m n : Nat} {M : FieldMatrix 𝕜 m n} {G : Dense K}
    {d y : Fin n → 𝕜} {f : Fin m → 𝕜} {x : ℝ} {method : SolveMethod} (hJ : J.Reads M)
    (hG : G.Reads (Mᵀ * M)) (hdamping : s.ext.damping = real x) (hd : s.ext.scaling.Reads d)
    (hf : s.fu.Reads f) (hmethod : s.work.system.method.getD .lu = method)
    (hanswers : LinearSystem.Answers c.backend c.problem.evaluate method (M.damped x d) (Mᵀ *ᵥ f)
      y) :
    (velocity c J (.dense G)).Ends s
      (fun v t => v.Reads (-y) ∧ t.work.system.method = some method) (fun _ _ => False) := by
  obtain ⟨gradient, hgradient, hg⟩ := hJ.applyTranspose hf.size
  have hdense : (Dense.addDiagonal G (s.ext.damping • s.ext.scaling)).Reads (M.damped x d) := by
    rw [hdamping]
    exact hG.addDiagonal (hd.smul x)
  have hsquare : (Dense.addDiagonal G (s.ext.damping • s.ext.scaling)).isSquare = true := by
    simp [Grid.isSquare, hdense.height, hdense.cols]
  have hchoice : SolveMethod.forMatrix ((Matrix.dense G).addDiagonal
      (s.ext.damping • s.ext.scaling)) = .lu := if_pos hsquare
  have hreads : (velocity c J (.dense G)).Ends s (fun v _ => v.Reads (-y)) (fun _ _ => False) := by
    simp only [velocity, ends_bind, ends_get, ends_ofFault_ok hgradient, Run.ends_update,
      Run.ends_onWork, ends_pure]
    refine (hanswers _ gradient s.work hdense (hg f hf) hmethod).mono (fun _ w hw => ?_)
      (fun _ _ h => h)
    exact hw.mono (fun x _ hx => hx.neg) (fun _ _ h => h)
  refine (hreads.and (velocity_method hB J (.dense G) s)).mono (fun v t h => ⟨h.1, ?_⟩)
    (fun _ _ h => h.1)
  rw [h.2, hchoice, hmethod]

/-- The matrix of a step, as it is given to the linear system. -/
theorem Between.damped (hp : c.problem.ZeroFilled) (hr : Between 𝕜 a c floor r)
    (hmodel : (model c).eval r = (.ok (J, A), s)) :
    ∃ (M : FieldMatrix 𝕜 r.fu.size c.problem.size) (d : Fin c.problem.size → 𝕜) (x : ℝ),
      0 < x ∧ (∀ i, floor ≤ RCLike.re (d i)) ∧ J.Reads M ∧ A.Reads (Mᵀ * M) ∧
        s.ext.scaling.Reads d ∧ s.ext.damping = real x ∧
          (A.addDiagonal (s.ext.damping • s.ext.scaling)).Reads (M.damped x d) := by
  have hmodelled : Modelled c r J A s := (model_modelled r).ok hmodel
  obtain ⟨M, d, hM, hA, hd, hfloor⟩ := hr.modelled hp hmodelled
  obtain ⟨x, hpositive, hx⟩ := hr.damping
  have hsdamping : s.ext.damping = real x := by rw [hmodelled.ext, hx]
  refine ⟨M, d, x, hpositive, hfloor, hM, hA, hd, hsdamping, ?_⟩
  rw [hsdamping]
  exact hA.addDiagonal (hd.smul x)

/-- A method by elimination stays one. -/
theorem Between.isDirect (hB : c.backend.Frames) (hp : c.problem.ZeroFilled)
    (hr : Between 𝕜 a c floor r) (hdirect : IsDirect r) (h : Tries c r J A s v fu w) :
    ∀ M ∈ w.system.method, SolveMethod.IsDirect M := by
  obtain ⟨hmodel, s', hvelocity, hevaluated⟩ := h
  obtain ⟨_, _, _, -, -, -, -, -, -, hdamped⟩ := hr.damped hp hmodel
  have hsystem : s.work.system = r.work.system := ((model_system c).ends r).ok hmodel
  have hmethod := (velocity_method hB J A s).ok hvelocity
  have hleft : w.model = s'.work.model := ((c.problem.evaluate_model _).ends _).ok hevaluated
  have hkept : w.system.method = s'.work.system.method := congrArg (·.2.2.method) hleft
  rw [hkept, hmethod, hsystem]
  rintro M hM
  obtain rfl := Option.some.inj (Option.mem_def.1 hM)
  cases hr' : r.work.system.method with
  | none => exact hdamped.forMatrix_isDirect
  | some M => exact hdirect M hr'

/-- Elimination misses nothing. -/
theorem Between.solves (hB : c.backend.Eliminates 𝕜) (hp : c.problem.ZeroFilled)
    (hr : Between 𝕜 a c floor r) (hdirect : IsDirect r) : Solves 𝕜 c 0 r := by
  intro J A s v s' hmodel hvelocity m M d f x hM hf hx hd
  obtain ⟨N, _, _, -, -, hN, hA, -⟩ := hr.damped hp hmodel
  obtain rfl : m = r.fu.size := hM.height.symm.trans hN.height
  obtain rfl := hM.inj hN
  have hmodelled : Modelled c r J A s := (model_modelled r).ok hmodel
  have hsystem : s.work.system = r.work.system := ((model_system c).ends r).ok hmodel
  have hmethod : ∀ M ∈ s.work.system.method, SolveMethod.IsDirect M := by rwa [hsystem]
  have hresidual : s.fu.Reads f := by rwa [Run.eq_of_rest hmodelled.rest]
  obtain ⟨y, hy, hsolution⟩ :=
    (velocity_eliminates hB hmethod hM hA hx hd hresidual).ok hvelocity
  refine ⟨y, hy, ?_⟩
  rw [hsolution, neg_add_cancel, norm_zero, zero_mul]

end LevenbergMarquardt

end RootFinding
