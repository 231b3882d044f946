import RootFinding.Proofs.AffineSolves
import RootFinding.Proofs.Cosine
import RootFinding.Proofs.DiagonalSystems
import RootFinding.Proofs.Refusals

/-!
# Steps on separate equations

A system in which each equation has an unknown of its own has a diagonal Jacobian, and so have the
damped normal equations of a Levenberg-Marquardt step. Its velocities can be told entry by entry,
and a run of known length can be followed step by step.

* `LevenbergMarquardt.separateProblem f slope x₀`: the equations `f i` with the slopes `slope i`.
* `LevenbergMarquardt.Stands`: what is known of a run before a step that makes a new Jacobian.
  `LevenbergMarquardt.Stands.next`: where a step leads to that is taken and does not end the run.
  `LevenbergMarquardt.Stands.stalls`: the step whose check fails.
* `LevenbergMarquardt.answered_single`, `LevenbergMarquardt.answered_pair`: the velocity by
  elimination in one unknown, and by least squares in two.
-/

open scoped Matrix

namespace RootFinding

open Action Exact ExactEntry

namespace LevenbergMarquardt

open Newton (arrayOf arrayOf_reads)

/-! ## Equations that are separate -/

section Separate

variable {n : Nat} {f slope : Fin n → ℝ → ℝ} {x x₀ : Fin n → ℝ} {u fu : Vec Exact}

/-- Each function at the entry in its place. -/
noncomputable def onEntries (f : Fin n → ℝ → ℝ) (v : Vec Exact) : Vec Exact :=
  .ofList (List.zipWith lifted (List.ofFn f) v.toList)

theorem onEntries_reads (hu : u.Reads x) : (onEntries f u).Reads fun i => f i (x i) := by
  rw [Vec.reads_iff] at hu ⊢
  unfold onEntries
  rw [hu]
  exact Vec.zipWith_ofFn _ _ _

/-- The Jacobian of separate equations. -/
noncomputable abbrev slopes (slope : Fin n → ℝ → ℝ) (x : Fin n → ℝ) : FieldMatrix ℝ n n :=
  (0 : FieldMatrix ℝ n n).addDiagonal fun i => slope i (x i)

/-- Equations that each have an unknown of their own. -/
noncomputable def separateProblem (f slope : Fin n → ℝ → ℝ) (x₀ : Fin n → ℝ) :
    Problem Unit Exact Exact where
  residual := .returning fun t w => (.ok ⟨[n], onEntries f t.entries⟩, w)
  guess := ⟨[n], Vec.numbers (List.ofFn x₀)⟩
  jacobian := some fun t w =>
    (.ok (.dense (Dense.addDiagonal (arrayOf (0 : FieldMatrix ℝ n n)) (onEntries slope t.entries))),
      w)

/-- The guess of the run reads as `x₀`. -/
theorem separate_guess : (separateProblem f slope x₀).guess.entries.Reads x₀ := rfl

theorem separate_size : (separateProblem f slope x₀).size =
    Tensor.sizeOf (separateProblem f slope x₀).guess.shape :=
  separate_guess.size.trans (Nat.one_mul n).symm

theorem separate_restructure (hu : u.Reads x) :
    (separateProblem f slope x₀).restructure u = .ok ⟨[n], u⟩ :=
  if_pos (hu.size.trans (Nat.one_mul n).symm)

theorem separate_evaluate (hu : u.Reads x) (w : Workspace Unit Exact Exact) :
    ((separateProblem f slope x₀).evaluate u).Ends w
      (fun fu _ => fu.Reads fun i => f i (x i)) (fun _ _ => False) := by
  simp only [Problem.evaluate, ends_bind, separate_restructure hu, ends_ofFault_ok rfl]
  exact onEntries_reads hu

theorem separate_jacobian (s : JacobianSettings Exact) (hu : u.Reads x) (hfu : fu.size = n)
    (w : Workspace Unit Exact Exact) :
    ((separateProblem f slope x₀).jacobianAt s u (some fu)).Ends w
      (fun J w' => (∃ D, J = .dense D ∧ D.Reads (slopes slope x)) ∧ w'.jacobian = some J)
      (fun _ _ => False) := by
  have hreads := (arrayOf_reads (0 : FieldMatrix ℝ n n)).addDiagonal
    (onEntries_reads (f := slope) hu)
  refine (Problem.jacobianAt_given (p := separateProblem f slope x₀) rfl
    (separate_restructure hu) hu.size hfu rfl hreads s).mono (fun J w' h => ?_) (fun _ _ h => h)
  obtain ⟨rfl, hstored, -⟩ := h
  exact ⟨⟨_, rfl, hreads⟩, hstored⟩

variable (f slope x₀) in
/-- The residual of separate equations as a function of the unknowns. -/
noncomputable def separateFunction : Vec Exact → Except (Thrown Exact Exact) (Vec Exact) :=
  (separateProblem f slope x₀).residualOf fun t => .ok ⟨[n], onEntries f t.entries⟩

theorem separate_computes :
    (separateProblem f slope x₀).Computes (separateFunction f slope x₀) :=
  Problem.computes_returning rfl fun _ _ => rfl

variable (f slope x₀) in
theorem separateFunction_reads (hu : u.Reads x) :
    ∃ fu, separateFunction f slope x₀ u = .ok fu ∧ fu.Reads fun i => f i (x i) := by
  have hevaluates : ((separateProblem f slope x₀).evaluate u).Ends (Run.emptyWorkspace ())
      (fun fu _ => fu.Reads fun i => f i (x i)) (fun _ _ => False) := separate_evaluate hu _
  obtain ⟨fu, w, hevaluated, hfu⟩ := hevaluates.exists_ok
  exact ⟨fu, separate_computes.eq_of_eval hevaluated, hfu⟩

theorem separate_finiteAt (hu : u.Reads x) : FiniteAt (separateFunction f slope x₀) u := by
  obtain ⟨fu, hfu, hreads⟩ := separateFunction_reads f slope x₀ hu
  exact ⟨hu.isFinite, fu, hfu, hreads.isFinite⟩

theorem separate_steady : (separateProblem f slope x₀).Steady (id : Unit → Unit) :=
  Problem.steady_of_pure rfl rfl

theorem separate_zeroFilled : (separateProblem f slope x₀).ZeroFilled := by
  rintro jac hjac x w A w' h
  obtain rfl := Option.some.inj hjac
  cases h

/-- The curvatures that a step finds. -/
theorem slopes_gram (i : Fin n) :
    ((slopes slope x)ᵀ * slopes slope x) i i = slope i (x i) * slope i (x i) := by
  simp [FieldMatrix.addDiagonal]

theorem gradient_slopes (z : Fin n → ℝ) (i : Fin n) :
    ((slopes slope x)ᵀ *ᵥ z) i = slope i (x i) * z i := by
  simp [FieldMatrix.addDiagonal, Matrix.mulVec_diagonal]

end Separate

/-! ## Steps that are taken -/

section Steps

variable {n : Nat} {f slope : Fin n → ℝ → ℝ} {x₀ x d y : Fin n → ℝ} {damping : ℝ}
  {termination : Termination Exact} {choice : SystemChoice Exact} {m : SolveMethod}
  {r₀ r s t : Run Unit Exact Exact (State Exact Exact)}

noncomputable def separateSetup (f slope : Fin n → ℝ → ℝ) (x₀ : Fin n → ℝ)
    (termination : Termination Exact) : Setup Unit Exact Exact where
  problem := separateProblem f slope x₀
  options := { abstol := 1e-8, reltol := 1e-8, termination, norm := Vec.norm }
  backend := .standard

/-- The standard settings with a linear system of choice. -/
noncomputable def choosing (choice : SystemChoice Exact) : LevenbergMarquardt Exact :=
  { standard with choice }

/-- The scaling of a step at `x` after the scaling `d`. -/
noncomputable def raised (slope : Fin n → ℝ → ℝ) (x d : Fin n → ℝ) : Fin n → ℝ :=
  fun i => max (d i) (slope i (x i) * slope i (x i))

/-- Before a step at `x` that makes a new Jacobian and solves by the method `m`, with the scaling
`d`. -/
structure Stands (choice : SystemChoice Exact) (c : Setup Unit Exact Exact)
    (f : Fin n → ℝ → ℝ) (x d : Fin n → ℝ) (damping : ℝ) (m : SolveMethod)
    (r : Run Unit Exact Exact (State Exact Exact)) : Prop where
  iterate : r.u.Reads x
  residual : r.fu.Reads fun i => f i (x i)
  renew : r.ext.renew = true
  scaling : r.ext.scaling.Reads d
  damping : r.ext.damping = real damping
  method : r.work.system.method.getD .lu = m
  level : Level (choosing choice) c r

/-- The run that has started in `r₀` has come to `r` by so many steps, and goes on. -/
structure Comes (choice : SystemChoice Exact) (c : Setup Unit Exact Exact)
    (r₀ : Run Unit Exact Exact (State Exact Exact)) (k : Nat)
    (r : Run Unit Exact Exact (State Exact Exact)) : Prop where
  leads : Run.Leads (choosing choice).strategy c r₀ r
  error : r.error = none
  stopped : r.stopped = false
  steps : r.steps = k
  maxiters : r.maxiters = 1000

theorem Comes.isActive {c : Setup Unit Exact Exact} {k : Nat} (h : Comes choice c r₀ k r)
    (hk : k < 1000) : r.isActive := by
  simp only [Run.isActive, h.stopped, h.steps, h.maxiters, Bool.not_false, Bool.true_and,
    decide_eq_true_eq]
  exact_mod_cast hk

theorem Comes.next {c : Setup Unit Exact Exact} {k : Nat} (h : Comes choice c r₀ k r)
    (hk : k < 1000) (hstep : (Run.step (choosing choice).strategy c).eval r = (.ok (), t))
    (herror : t.error = none) (hstopped : t.stopped = false) : Comes choice c r₀ (k + 1) t := by
  obtain ⟨hcount, hlimit⟩ := (((choosing choice).proceeds c).stepsTo hstep).count
  exact ⟨h.leads.step (h.isActive hk) hstep, herror, hstopped, by rw [hcount, h.steps],
    hlimit.trans h.maxiters⟩

/-- The equations of the step are answered by `y`. -/
abbrev AnsweredBy (f slope : Fin n → ℝ → ℝ) (x₀ x d : Fin n → ℝ) (damping : ℝ) (m : SolveMethod)
    (y : Fin n → ℝ) : Prop :=
  LinearSystem.Answers Backend.standard (separateProblem f slope x₀).evaluate m
    ((slopes slope x).damped damping (raised slope x d)) ((slopes slope x)ᵀ *ᵥ fun i => f i (x i)) y

theorem Stands.model (hr : Stands choice (separateSetup f slope x₀ termination) f x d damping m r) :
    (model (separateSetup f slope x₀ termination)).Ends r
      (fun X s => (∃ D, X.1 = .dense D ∧ D.Reads (slopes slope x)) ∧
        (∃ G, X.2 = .dense G ∧ G.Reads ((slopes slope x)ᵀ * slopes slope x)) ∧
        s.ext.scaling.Reads (raised slope x d)) (fun _ _ => False) := by
  simp only [LevenbergMarquardt.model, renewJacobian, ends_bind, ends_get, hr.renew, if_true,
    Run.ends_onWork, Run.ends_update]
  refine (separate_jacobian r.ext.jacobians hr.iterate hr.residual.size r.work).mono
    (fun J w hJ => ?_) (fun _ _ h => h)
  obtain ⟨⟨D, rfl, hD⟩, hstored⟩ := hJ
  have hgreater := Vec.Reads.zipWith hr.scaling hD.gram.diagonal maximum_real
  refine (ends_ofFault_ok (x := (_, _)) ?_).2 ⟨⟨D, rfl, hD⟩, ⟨_, rfl, hD.gram⟩, ?_⟩
  · simp only [LevenbergMarquardt.kept, hstored]
    rfl
  · have hraised : (fun i => max (d i) (((slopes slope x)ᵀ * slopes slope x) i i)) =
        raised slope x d := funext fun i => by rw [slopes_gram, raised]
    rw [hraised] at hgreater
    exact hgreater

/-- The trial of a step. -/
theorem Stands.tries (hr : Stands choice (separateSetup f slope x₀ termination) f x d damping m r)
    (hy : AnsweredBy f slope x₀ x d damping m y) :
    ∃ J A s v fu w, Tries (separateSetup f slope x₀ termination) r J A s v fu w ∧
      s.ext.scaling.Reads (raised slope x d) ∧ v.Reads (-y) ∧
      fu.Reads (fun i => f i ((x - y) i)) ∧ w.system.method = some m := by
  obtain ⟨⟨J, A⟩, s, hmodel, ⟨D, hJ, hD⟩, ⟨G, hA, hG⟩, hscaling⟩ := hr.model.exists_ok
  obtain rfl : J = .dense D := hJ
  obtain rfl : A = .dense G := hA
  have hmodelled : Modelled _ r (.dense D) (.dense G) s := (model_modelled r).ok hmodel
  have hdamping : s.ext.damping = real damping := by rw [hmodelled.ext, hr.damping]
  have hresidual : s.fu.Reads fun i => f i (x i) := by
    rw [Run.eq_of_rest hmodelled.rest]
    exact hr.residual
  have hsystem : s.work.system = r.work.system := ((model_system _).ends r).ok hmodel
  have hJ : (Matrix.dense D : Matrix Exact Exact).Reads (slopes slope x) := hD
  have hvelocity := velocity_answers (c := separateSetup f slope x₀ termination)
    Backend.standard_frames hJ hG hdamping hscaling hresidual (by rw [hsystem]; exact hr.method) hy
  obtain ⟨v, s', hvelocity, hv, hmethod⟩ := hvelocity.exists_ok
  have hahead : (r.u + v).Reads (x - y) := by
    rw [sub_eq_add_neg]
    exact hr.iterate.add hv
  have hevaluates : ((separateProblem f slope x₀).evaluate (r.u + v)).Ends s'.work
      (fun fu _ => fu.Reads fun i => f i ((x - y) i)) (fun _ _ => False) :=
    separate_evaluate hahead s'.work
  obtain ⟨fu, w, hevaluated, hfu⟩ := hevaluates.exists_ok
  have hleft : w.model = s'.work.model :=
    (((separateProblem f slope x₀).evaluate_model _).ends _).ok hevaluated
  exact ⟨_, _, s, v, fu, w, ⟨hmodel, s', hvelocity, hevaluated⟩, hscaling, hv, hfu,
    (congrArg (·.2.2.method) hleft).trans hmethod⟩

/-- A trial that does not turn and whose residual is not larger is taken. -/
theorem Stands.accepts (hr : Stands choice (separateSetup f slope x₀ termination) f x d damping m r)
    {v fu : Vec Exact} (hfu : fu.Reads fun i => f i ((x - y) i))
    (hturn : cosine v r.ext.velocity = real 0)
    (hle : ∀ i, |f i ((x - y) i)| ≤ |f i (x i)|) :
    (choosing choice).accepts r.ext v
      ((separateSetup f slope x₀ termination).options.norm fu) = .ok true := by
  have huphill : (choosing choice).uphill = real 1 := standard_uphill
  obtain ⟨taken, haccepts, hiff⟩ := accepts_iff (𝕜 := ℝ) huphill one_pos r.ext v
    ((separateSetup f slope x₀ termination).options.norm fu)
  have hnorm : ∀ {fu : Vec Exact} {z : Fin n → ℝ}, fu.Reads z →
      (separateSetup f slope x₀ termination).options.norm fu = real (euclidean (List.ofFn z)) :=
    fun {fu z} h => by
      rw [h]
      exact Vec.norm_numbers _
  rw [hturn, hr.level.loss, hnorm hr.residual, hnorm hfu, passes_real, real_le] at hiff
  rw [hnorm hfu] at haccepts ⊢
  rw [haccepts, hiff.2 (by rw [sub_zero, Real.one_rpow, one_mul]; exact euclidean_ofFn_mono hle)]

/-- A step that returns and has not failed has checked where it leads to. -/
theorem step_checked {c : Setup Unit Exact Exact}
    (h : (Run.step (choosing choice).strategy c).eval r = (.ok (), t)) (ht : t.error = none) :
    ∃ b previous, (Checker.check t.fu t.u previous).eval r.checker = (.ok b, t.checker) := by
  obtain ⟨t', ht', rfl⟩ := Run.step_going h ht
  obtain ⟨b, htested⟩ := ((choosing choice).proceeds c r).ok ht'
  refine ⟨b, t'.previous, ?_⟩
  rw [Run.recorded_fu, Run.recorded_u, Run.recorded_checker]
  exact htested.checked

/-- A step that is taken, where the check does not end the run, leads to the next one. -/
theorem Stands.next (hr : Stands choice (separateSetup f slope x₀ termination) f x d damping m r)
    {k : Nat} (hcomes : Comes choice (separateSetup f slope x₀ termination) r₀ k r) (hk : k < 1000)
    (hy : AnsweredBy f slope x₀ x d damping m y)
    (hturn : ∀ v : Vec Exact, v.Reads (-y) → cosine v r.ext.velocity = real 0)
    (hle : ∀ i, |f i ((x - y) i)| ≤ |f i (x i)|)
    (hcheck : ∀ {u fu : Vec Exact} previous, u.Reads (x - y) →
      fu.Reads (fun i => f i ((x - y) i)) →
        (Checker.check fu u previous).Ends r.checker (fun b _ => b = false) (fun _ _ => False)) :
    ∃ t, Comes choice (separateSetup f slope x₀ termination) r₀ (k + 1) t ∧
      Stands choice (separateSetup f slope x₀ termination) f (x - y) (raised slope x d)
        (damping / 3) m t ∧
      (∃ v, t.ext.velocity = some v ∧ v.Reads (-y)) ∧
      ∃ previous, (Checker.check t.fu t.u previous).eval r.checker = (.ok false, t.checker) := by
  obtain ⟨J, A, s, v, fu, w, htries, hscaling, hv, hfu, hmethod⟩ := hr.tries hy
  have haccepts := hr.accepts hfu (hturn v hv) hle
  have hahead : (r.u + v).Reads (x - y) := by
    rw [sub_eq_add_neg]
    exact hr.iterate.add hv
  obtain ⟨t, hstep, hstopped, herror⟩ := htries.goes rfl haccepts fun previous =>
    hcheck previous hahead hfu
  rw [hcomes.error] at herror
  obtain ⟨t', hstepped, rfl, rfl, hleaves⟩ := htries.stepped rfl haccepts hstep herror
  obtain ⟨gradient, velocity, hext⟩ := hstepped.ext
  have hdamping : s.ext.damping = real damping := by rw [hstepped.modelled.ext, hr.damping]
  have hu : (Run.recorded (separateSetup f slope x₀ termination) r.u t').u.Reads (x - y) := by
    rw [hleaves.u]
    exact hahead
  have hresidual : (Run.recorded (separateSetup f slope x₀ termination) r.u t').fu.Reads
      fun i => f i ((x - y) i) := by
    rw [hleaves.fu]
    exact hfu
  obtain ⟨b, previous, hchecked⟩ := step_checked hstep herror
  obtain rfl : b = false := (hcheck previous hu hresidual).ok hchecked
  refine ⟨_, hcomes.next hk hstep herror (hstopped.trans hcomes.stopped),
    ⟨hu, hresidual, ?_, ?_, ?_, ?_, hstepped.level separate_size hr.level⟩,
    ⟨_, hleaves.velocity, hv⟩, previous, hchecked⟩
  · rw [Run.recorded_ext, hext]
  · rw [Run.recorded_ext, hext]
    exact hscaling
  · have hdecrease : (choosing choice).decrease = 3.0 := rfl
    have hthird : (1.0 / 3.0 : Exact) = real (1 / 3) := by norm_num [Exact.real_div]
    rw [Run.recorded_ext, hext]
    simp only [hdamping, if_true, hdecrease, hthird, real_mul]
    rw [mul_one_div]
  · rw [hmethod]
    rfl

/-- A velocity of zero does not turn. -/
theorem cosine_of_neg_zero {v : Vec Exact} (hv : v.Reads (-(0 : Fin n → ℝ)))
    (last : Option (Vec Exact)) : cosine v last = real 0 := by
  rw [neg_zero] at hv
  exact cosine_of_isZero ℝ hv.isZero last

/-- So its step is taken, and stays where it is. -/
theorem Stands.rests (hr : Stands choice (separateSetup f slope x₀ termination) f x d damping m r)
    {k : Nat} (hcomes : Comes choice (separateSetup f slope x₀ termination) r₀ k r) (hk : k < 1000)
    (hy : AnsweredBy f slope x₀ x d damping m 0)
    (hcheck : ∀ {u fu : Vec Exact} previous, u.Reads x → fu.Reads (fun i => f i (x i)) →
      (Checker.check fu u previous).Ends r.checker (fun b _ => b = false) (fun _ _ => False)) :
    ∃ t w, Comes choice (separateSetup f slope x₀ termination) r₀ (k + 1) t ∧
      Stands choice (separateSetup f slope x₀ termination) f x (raised slope x d) (damping / 3)
        m t ∧
      t.ext.velocity = some w ∧ w.isZero = true := by
  obtain ⟨t, ht, hstands, ⟨w, hw, hzero⟩, -⟩ := hr.next hcomes hk hy
    (fun v hv => cosine_of_neg_zero hv _) (fun i => by rw [sub_zero])
    (by rw [sub_zero]; exact hcheck)
  rw [sub_zero] at hstands
  rw [neg_zero] at hzero
  exact ⟨t, w, ht, hstands, hw, hzero.isZero⟩

/-- A step that is taken and whose check fails. -/
theorem Stands.stalls (hr : Stands choice (separateSetup f slope x₀ termination) f x d damping m r)
    (hy : AnsweredBy f slope x₀ x d damping m y)
    (hturn : ∀ v : Vec Exact, v.Reads (-y) → cosine v r.ext.velocity = real 0)
    (hle : ∀ i, |f i ((x - y) i)| ≤ |f i (x i)|) {P : Checker Exact Exact → Prop}
    (hcheck : ∀ {u fu : Vec Exact} previous, u.Reads (x - y) →
      fu.Reads (fun i => f i ((x - y) i)) →
        (Checker.check fu u previous).Ends r.checker (fun _ _ => False)
          (fun e k => (∃ f, e = .failure f) ∧ P k)) :
    ∃ g s v, ((choosing choice).step (separateSetup f slope x₀ termination)).eval r =
        (.error (.failure g), s) ∧
      s.u.Reads (x - y) ∧ P s.checker ∧ s.ext.velocity = some v ∧ v.Reads (-y) := by
  obtain ⟨J, A, s, v, fu, w, htries, -, hv, hfu, -⟩ := hr.tries hy
  have hahead : (r.u + v).Reads (x - y) := by
    rw [sub_eq_add_neg]
    exact hr.iterate.add hv
  have hends : ((choosing choice).step (separateSetup f slope x₀ termination)).Ends r
      (fun _ _ => False) (fun e t => (∃ g, e = .failure g) ∧ t.u.Reads (x - y) ∧ P t.checker ∧
        t.ext.velocity = some v) := by
    refine htries.ends rfl (hr.accepts hfu (hturn v hv) hle) fun t hleaves hchecker _ => ?_
    simp only [Run.check, ends_bind, ends_get, ends_within]
    rw [hleaves.fu, hleaves.u, hchecker]
    refine (hcheck t.previous hahead hfu).mono (fun _ _ h => h.elim) (fun e k he => ?_)
    exact ⟨he.1, hahead, he.2, hleaves.velocity⟩
  rcases hstep : ((choosing choice).step (separateSetup f slope x₀ termination)).eval r with
    ⟨e | _, t⟩
  · obtain ⟨⟨g, rfl⟩, hu, hP, hvelocity⟩ := hends.error hstep
    exact ⟨g, t, v, rfl, hu, hP, hvelocity, hv⟩
  · exact (hends.ok hstep).elim

variable (f slope x₀ termination) in
/-- What the strategy makes of a guess. -/
theorem separate_prepared {system : LinearSystem Exact Exact}
    (hchoice : choice.system false = .ok system) (u fu : Vec Exact) :
    ∃ ext, (choosing choice).start (separateSetup f slope x₀ termination) u fu =
        .ok (system, ext) ∧
      ext.renew = true ∧ ext.scaling = Vec.replicate u.size 1e-8 ∧ ext.damping = 1.0 ∧
      ext.factor = (choosing choice).increase ∧ ext.loss = fu.norm ∧ ext.velocity = none ∧
      ext.jacobians.concrete = true := by
  have hprepared : prepare (separateSetup f slope x₀ termination).problem (choosing choice).scheme
      (choosing choice).choice = .ok (system, .forward) := by
    have hconcrete : ((separateSetup f slope x₀ termination).problem.jacobian.isNone && !true) =
        false := rfl
    have hsame : (choosing choice).choice = choice := rfl
    unfold prepare
    rw [hconcrete, hsame, hchoice]
    rfl
  refine ⟨{ jacobians := { scheme := .forward, reuseTolerance := 0.1 }, damping := 1.0
            factor := 2.0, scaling := Vec.replicate u.size 1e-8, loss := fu.norm },
    ?_, rfl, rfl, rfl, rfl, rfl, rfl, rfl⟩
  unfold LevenbergMarquardt.start
  rw [hprepared]
  rfl

variable (f slope x₀ termination choice) in
/-- The start of a run on separate equations. -/
theorem separate_starts {system : LinearSystem Exact Exact}
    (hchoice : choice.system false = .ok system) (hm : system.method.getD .lu = m) :
    ∃ r, Run.start (choosing choice).strategy (separateSetup f slope x₀ termination) () = .ok r ∧
      Stands choice (separateSetup f slope x₀ termination) f x₀ (fun _ => 1e-8) 1 m r ∧
      r.ext.velocity = none ∧ Comes choice (separateSetup f slope x₀ termination) r 0 r ∧
      r.checker = .ofStart termination r.fu r.u 1e-8 1e-8 Vec.norm := by
  have hguess : (separateProblem f slope x₀).guess.entries.Reads x₀ := separate_guess
  have hevaluates : ((separateProblem f slope x₀).evaluate
      (separateProblem f slope x₀).guess.entries).Ends (Run.emptyWorkspace ())
      (fun fu _ => fu.Reads fun i => f i (x₀ i)) (fun _ _ => False) := separate_evaluate hguess _
  obtain ⟨fu, w, hevaluated, hfu⟩ := hevaluates.exists_ok
  obtain ⟨ext, hstart, hrenew, hscaling, hdamping, hfactor, hloss, hvelocity, hconcrete⟩ :=
    separate_prepared f slope x₀ termination hchoice (separateProblem f slope x₀).guess.entries fu
  have hstarted : Run.Started (choosing choice).strategy (separateSetup f slope x₀ termination) ()
      _ fu w system ext :=
    ⟨hevaluated, fun _ => hfu.size.trans hguess.size.symm, hstart, Int.natCast_nonneg 1000, rfl⟩
  have hfloor : ∀ k, k = n →
      (Vec.replicate k (1e-8 : Exact)).Reads fun _ : Fin n => (1e-8 : ℝ) := by
    rintro _ rfl
    rw [ofScientific_eq]
    exact Vec.reads_replicate _ _
  have hone : (1.0 : Exact) = real 1 := by norm_num
  exact ⟨_, hstarted.start_eq, ⟨hguess, hfu, hrenew, hscaling ▸ hfloor _ hguess.size,
    hdamping.trans hone, hm, rfl, hconcrete, hfactor, hloss⟩, hvelocity,
    ⟨.refl, rfl, rfl, rfl, rfl⟩, rfl⟩

/-- Where a slope and its residual are not zero, the gradient is not zero. -/
theorem not_atRest (hu : r.u.Reads x) (hfu : r.fu.Reads fun i => f i (x i)) {i : Fin n}
    (hne : slope i (x i) * f i (x i) ≠ 0) :
    ¬AtRest (separateSetup f slope x₀ termination) r := by
  rintro ⟨J, g, hJ, hg, hzero⟩
  obtain ⟨w', hw'⟩ := hJ r.work
  have hmade : ((separateProblem f slope x₀).jacobianAt r.ext.jacobians r.u (some r.fu)).Ends r.work
      (fun J w' => (∃ D, J = .dense D ∧ D.Reads (slopes slope x)) ∧ w'.jacobian = some J)
      (fun _ _ => False) := separate_jacobian r.ext.jacobians hu hfu.size r.work
  obtain ⟨⟨D, rfl, hD⟩, -⟩ := hmade.ok hw'
  have hreads : (Matrix.dense D : Matrix Exact Exact).Reads (slopes slope x) := hD
  obtain ⟨g', hg', hgradient⟩ := hreads.applyTranspose hfu.size
  cases hg'.symm.trans hg
  have hg : g.Reads ((slopes slope x)ᵀ *ᵥ fun i => f i (x i)) := hgradient _ hfu
  have hmoving := hg.isZero_eq_false (i := i) (by rwa [gradient_slopes])
  cases hmoving.symm.trans hzero

/-! ### Answers to the equations of a step -/

/-- The entry on the diagonal of the equations of a step. -/
noncomputable def pivot (slope : Fin n → ℝ → ℝ) (x d : Fin n → ℝ) (damping : ℝ) (i : Fin n) : ℝ :=
  slope i (x i) * slope i (x i) + damping * raised slope x d i

theorem damped_slopes (i j : Fin n) :
    (slopes slope x).damped damping (raised slope x d) i j =
      if i = j then pivot slope x d damping i else 0 := by
  by_cases hij : i = j
  · subst hij
    rw [if_pos rfl, pivot]
    simp [FieldMatrix.damped, FieldMatrix.addDiagonal]
  · rw [if_neg hij]
    simp [FieldMatrix.damped, FieldMatrix.addDiagonal, hij]

/-- The answer of elimination in one unknown. -/
theorem answered_single {f slope : Fin 1 → ℝ → ℝ} {x₀ x d y : Fin 1 → ℝ}
    (hne : pivot slope x d damping 0 ≠ 0)
    (hy : pivot slope x d damping 0 * y 0 = slope 0 (x 0) * f 0 (x 0)) :
    AnsweredBy f slope x₀ x d damping .lu y := by
  have hentry : (slopes slope x).damped damping (raised slope x d) 0 0 =
      pivot slope x d damping 0 := damped_slopes 0 0
  refine LinearSystem.answers_single (by rwa [hentry]) ?_ _
  rw [hentry, gradient_slopes, hy]

/-- The answer of the least squares method in two unknowns. -/
theorem answered_pair {f slope : Fin 2 → ℝ → ℝ} {x₀ x d y : Fin 2 → ℝ} {p q : ℝ}
    (hp : pivot slope x d damping 0 = p) (hq : pivot slope x d damping 1 = q) (hlow : 1e-100 ≤ q)
    (hqp : q ≤ p) (hhigh : p ≤ 1e100) (hfirst : y 0 = slope 0 (x 0) * f 0 (x 0) / p)
    (hsecond : y 1 =
      if 1 / 4503599627370496 * p < q then slope 1 (x 1) * f 1 (x 1) / q else 0) :
    AnsweredBy f slope x₀ x d damping .lstsq y := by
  have hmatrix : (slopes slope x).damped damping (raised slope x d) = !![p, 0; 0, q] := by
    ext i j
    rw [damped_slopes]
    fin_cases i <;> fin_cases j <;> simp [hp, hq]
  have hanswers := LinearSystem.answers_diagonal hlow hqp hhigh
    ((slopes slope x)ᵀ *ᵥ fun i => f i (x i)) (separateProblem f slope x₀).evaluate
  rw [← hmatrix, gradient_slopes, gradient_slopes, ← hfirst, ← hsecond] at hanswers
  have hy : ![y 0, y 1] = y := by
    funext i
    fin_cases i <;> rfl
  rwa [hy] at hanswers

end Steps

end LevenbergMarquardt

end RootFinding
