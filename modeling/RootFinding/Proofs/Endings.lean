import Mathlib.Logic.ExistsUnique
import RootFinding.Proofs.Faults

/-!
# How a solve ends

A solve from start to end ends in exactly one of three ways (`Ending`): the check of the last step
is passed, the last step has failed, or the steps are used up. In each way the solution says so by
its code, its error and the failure that it can be turned into.

* `Run.Underway S c r₀ r`: from `r₀` the run has got to `r` by steps that returned and whose checks
  were not passed.
* `Run.Closes S c r₀ k e`: the loop has ended the run in the state `e`, in the way `k`.
* `Solution.EndsAs S c r₀ s k`: what a solution says that ends in the way `k`.
* `Algorithm.solve_classified`: a solve whose steps raise nothing but failures answers, and ends in
  exactly one way.
-/

namespace RootFinding

open Action

variable {σ R K X : Type} [Scalar R] [Entry R K] {S : Strategy σ R K X} {c : Setup σ R K}

/-- The ways in which a solve ends. -/
inductive Ending where
  | converged
  | failed
  | exhausted
  deriving DecidableEq, Repr

/-! ## Sizes -/

namespace Run

variable {r s t r₀ : Run σ R K X}

theorem Moved.size_eq (h : Moved c r t) (hr : r.u.size = Tensor.sizeOf c.problem.guess.shape) :
    t.u.size = Tensor.sizeOf c.problem.guess.shape := by
  rcases h with ⟨hu, -⟩ | hanswered
  · rw [hu, hr]
  · exact hanswered.size_eq

theorem EndedWith.size_eq {f : Failure R K} (h : EndedWith c f r t)
    (hr : r.u.size = Tensor.sizeOf c.problem.guess.shape) :
    t.u.size = Tensor.sizeOf c.problem.guess.shape := by
  rcases h.fellBack.core_cases with hcore | ⟨fu, w, hresidual, hcore⟩
  · have hu : t.u = r.u := congrArg Prod.fst hcore
    rw [hu, hr]
  · have hu : t.u = r.checker.fallback := congrArg Prod.fst hcore
    rw [hu]
    exact Problem.Answered.size_eq ⟨_, w, hresidual⟩

/-! ## Runs under way -/

/-- From `r₀` the run has got to the last argument by active steps that returned and whose checks
were not passed. -/
inductive Underway (S : Strategy σ R K X) (c : Setup σ R K) (r₀ : Run σ R K X) :
    Run σ R K X → Prop
  | start : Underway S c r₀ r₀
  | step {r s : Run σ R K X} (before : Underway S c r₀ r) (active : r.isActive)
    (stepped : (S.step c).eval r = (.ok (), s))
    (unmet : (Checker.check s.fu s.u s.previous).eval r.checker = (.ok false, s.checker)) :
    Underway S c r₀ (recorded c r.u s)

/-- The way `k` in which the loop has ended a run in the last argument. -/
inductive Closes (S : Strategy σ R K X) (c : Setup σ R K) (r₀ : Run σ R K X) :
    Ending → Run σ R K X → Prop
  | converged {r s : Run σ R K X} (before : Underway S c r₀ r) (active : r.isActive)
    (stepped : (S.step c).eval r = (.ok (), s)) (tested : Tested c true r s) :
    Closes S c r₀ .converged (recorded c r.u s)
  | failed {r s s' : Run σ R K X} {f : Failure R K} (before : Underway S c r₀ r)
    (active : r.isActive) (raised : (S.step c).eval r = (.error (.failure f), s))
    (broken : Broken c r s) (ended : EndedWith c f s s') :
    Closes S c r₀ .failed (recorded c r.u s')
  | exhausted {r : Run σ R K X} (before : Underway S c r₀ r) (limit : r.maxiters ≤ r.steps) :
    Closes S c r₀ .exhausted r

theorem Underway.leads (h : Underway S c r₀ r) : Leads S c r₀ r := by
  induction h with
  | start => exact .refl
  | step _ active stepped _ ih => exact ih.step active (step_of_ok stepped)

/-- No step that the loop takes from `r₀` raises anything. -/
def Clean (S : Strategy σ R K X) (c : Setup σ R K) (r₀ : Run σ R K X) : Prop :=
  ∀ r, Underway S c r₀ r → r.isActive → ∀ e t, (Run.step S c).eval r ≠ (.error e, t)

/-- A run of a setup that has not ended. -/
structure Fresh (c : Setup σ R K) (r : Run σ R K X) : Prop where
  code : r.code = .default
  stopped : r.stopped = false
  error : r.error = none
  maxiters : r.maxiters = c.options.maxiters
  steps_le : (r.steps : Int) ≤ r.maxiters

theorem Underway.fresh (hS : S.Proceeds c) (h : Underway S c r₀ r) (h₀ : Fresh c r₀) :
    Fresh c r := by
  induction h with
  | start => exact h₀
  | @step r s _ active stepped unmet ih =>
    obtain ⟨b, tested⟩ := (hS r).ok stepped
    have hb : Except.ok b = Except.ok false := congrArg Prod.fst (tested.checked.symm.trans unmet)
    cases hb
    have hs : s.status = r.status := tested.unmet
    have hactive : (r.steps : Int) < r.maxiters := by
      simp only [isActive, Bool.and_eq_true, decide_eq_true_eq] at active
      exact active.2
    refine ⟨?_, ?_, ?_, ?_, ?_⟩
    · rw [recorded_code, code_of_status hs, ih.code]
    · rw [recorded_stopped, stopped_of_status hs, ih.stopped]
    · rw [recorded_error, error_of_status hs, ih.error]
    · rw [recorded_maxiters, maxiters_of_status hs, ih.maxiters]
    · rw [recorded_steps, recorded_maxiters, steps_of_status hs, maxiters_of_status hs]
      omega

theorem Underway.size_eq (hS : S.Proceeds c) (h : Underway S c r₀ r)
    (h₀ : r₀.u.size = Tensor.sizeOf c.problem.guess.shape) :
    r.u.size = Tensor.sizeOf c.problem.guess.shape := by
  induction h with
  | start => exact h₀
  | step _ _ stepped _ ih =>
    obtain ⟨b, tested⟩ := (hS _).ok stepped
    rw [recorded_u]
    exact tested.moved.size_eq ih

theorem Closes.size_eq {k : Ending} {e : Run σ R K X} (hS : S.Proceeds c)
    (h : Closes S c r₀ k e) (h₀ : r₀.u.size = Tensor.sizeOf c.problem.guess.shape) :
    e.u.size = Tensor.sizeOf c.problem.guess.shape := by
  cases h with
  | converged before _ _ tested =>
    rw [recorded_u]
    exact tested.moved.size_eq (before.size_eq hS h₀)
  | failed before _ _ broken ended =>
    rw [recorded_u]
    exact ended.size_eq (broken.moved.size_eq (before.size_eq hS h₀))
  | exhausted before _ => exact before.size_eq hS h₀

/-- The loop ends a run in one of the three ways. -/
theorem loop_closes (hS : S.Proceeds c) (hclean : Clean S c r₀) (h₀ : Fresh c r₀)
    (fuel : Nat) (hfuel : r.maxiters ≤ r.steps + fuel) (h : Underway S c r₀ r) :
    (loop S c fuel).Ends r (fun _ e => ∃ k, Closes S c r₀ k e) (fun _ _ => False) := by
  have hover : ∀ r, Underway S c r₀ r → r.isActive = false → ∃ k, Closes S c r₀ k r :=
    fun r h hidle => by
      refine ⟨.exhausted, .exhausted h ?_⟩
      simpa [isActive, (h.fresh hS h₀).stopped] using hidle
  induction fuel generalizing r with
  | zero =>
    refine hover r h ?_
    simp only [isActive, Bool.and_eq_false_iff, decide_eq_false_iff_not]
    exact .inr (by omega)
  | succ fuel ih =>
    simp only [loop, ends_bind, ends_get]
    split
    next active =>
      rw [ends_bind, ends_iff]
      refine ⟨fun _ t ht => ?_, fun e t ht => hclean r h active e t ht⟩
      have hto : StepsTo S c r t := hS.stepsTo ht
      obtain ⟨hsteps, hmaxiters⟩ := hto.count
      cases hto with
      | on s stepped tested => exact ih (by omega) (.step h active stepped tested.checked)
      | converges s stepped tested =>
        refine (loop_idle fuel (isActive_of_stopped ?_)).mono (fun _ e he => ?_) (fun _ _ h => h)
        · rw [recorded_stopped, stopped_of_status tested.met]
          rfl
        · rw [he]
          exact ⟨.converged, .converged h active stepped tested⟩
      | fails f s s' raised broken ended =>
        refine (loop_idle fuel (isActive_of_stopped ?_)).mono (fun _ e he => ?_) (fun _ _ h => h)
        · rw [recorded_stopped, ended.stopped_eq]
        · rw [he]
          exact ⟨.failed, .failed h active raised broken ended⟩
    next hidle => exact hover r h (by simpa using hidle)

end Run

/-! ## Solutions -/

/-- The way `k` in which a solve has ended that began at `r₀`, and what its solution says then. -/
inductive Solution.EndsAs (S : Strategy σ R K X) (c : Setup σ R K) (r₀ : Run σ R K X)
    (s : Solution R K) : Ending → Prop
  /-- The check of the last step is passed at what is returned, and no failure is reported. -/
  | converged {r t : Run σ R K X} (before : Run.Underway S c r₀ r) (active : r.isActive)
    (stepped : (S.step c).eval r = (.ok (), t))
    (checked : (Checker.check s.residual.entries s.u.entries t.previous).eval r.checker =
      (.ok true, t.checker))
    (steps : s.stats.steps = r.steps + 1) (code : s.code = .success) (error : s.error = none)
    (silent : s.failure? = none) : EndsAs S c r₀ s .converged
  /-- The last step has failed, and its failure is reported. -/
  | failed {r t : Run σ R K X} {f : Failure R K} (before : Run.Underway S c r₀ r)
    (active : r.isActive) (raised : (S.step c).eval r = (.error (.failure f), t))
    (steps : s.stats.steps = r.steps + 1) (code : s.code = f.returnCode)
    (error : s.error = some f) (reported : s.failure? = some f) : EndsAs S c r₀ s .failed
  /-- All steps are used up, and this is reported. -/
  | exhausted {r : Run σ R K X} (before : Run.Underway S c r₀ r) (u : s.u.entries = r.u)
    (residual : s.residual.entries = r.fu) (steps : s.stats.steps = r.steps)
    (limit : (s.stats.steps : Int) = c.options.maxiters) (code : s.code = .maxIters)
    (error : s.error = none) (reported : ∃ f, s.failure? = some f ∧ f.kind = .iterationLimit) :
    EndsAs S c r₀ s .exhausted

/-- The way in which a solve has ended, as its solution shows it. -/
def Solution.ending (s : Solution R K) : Ending :=
  if s.error.isSome then .failed else if s.code = .success then .converged else .exhausted

section Solutions

variable {r t r₀ e : Run σ R K X} {s : Solution R K} {k : Ending}

theorem Solution.EndsAs.ending_eq (h : s.EndsAs S c r₀ k) : s.ending = k := by
  unfold Solution.ending
  cases h with
  | converged _ _ _ _ _ code error => simp [code, error]
  | failed _ _ _ _ code error => simp [error]
  | exhausted _ _ _ _ _ code error => simp [code, error]

/-- A solve takes no more steps than its limit. -/
theorem Solution.EndsAs.steps_le (hS : S.Proceeds c) (h₀ : Run.Fresh c r₀)
    (h : s.EndsAs S c r₀ k) : (s.stats.steps : Int) ≤ c.options.maxiters := by
  have hlast : ∀ r, Run.Underway S c r₀ r → r.isActive → s.stats.steps = r.steps + 1 →
      (s.stats.steps : Int) ≤ c.options.maxiters := fun r before active steps => by
    have hmaxiters := (before.fresh hS h₀).maxiters
    simp only [Run.isActive, Bool.and_eq_true, decide_eq_true_eq] at active
    omega
  cases h with
  | converged before active _ _ steps => exact hlast _ before active steps
  | failed before active _ steps => exact hlast _ before active steps
  | exhausted _ _ _ _ limit => exact Int.le_of_eq limit

omit [Scalar R] [Entry R K] in
theorem Solution.failure?_of_error {f : Failure R K} (hcode : s.code ≠ .success)
    (herror : s.error = some f) : s.failure? = some f := by
  have hsuccess : s.success = false := by simpa [success, ReturnCode.successful] using hcode
  simp [failure?, hsuccess, herror]

/-- The solution of a run that the loop has ended. -/
theorem Run.Closes.endsAs (hS : S.Proceeds c) (h₀ : Fresh c r₀) (h : Closes S c r₀ k e)
    (hs : (e.closed c).solution c.problem = .ok s) : s.EndsAs S c r₀ k := by
  obtain ⟨hu, hfu, hcode, herror, hstats, -⟩ := Run.solution_ok hs
  have hu : s.u.entries = e.u := hu
  have hfu : s.residual.entries = e.fu := hfu
  have hcode : s.code = e.finalCode := hcode
  have herror : s.error = e.error := herror
  have hsteps : s.stats.steps = e.steps := congrArg Stats.steps hstats
  have hkept : e.code ≠ .default → s.code = e.code := fun hne => hcode.trans (if_neg hne)
  cases h with
  | @converged r t before active stepped tested =>
    have ht : t.code = .success := code_of_status tested.met
    have hsuccess : s.code = .success := by
      rw [hkept (by rw [recorded_code, ht]; simp), recorded_code, ht]
    refine .converged before active stepped ?_ ?_ hsuccess ?_ ?_
    · rw [hu, hfu, recorded_u, recorded_fu]
      exact tested.checked
    · have hcount : t.steps = r.passed.steps := steps_of_status tested.met
      rw [hsteps, recorded_steps, hcount]
      rfl
    · have hnone : t.error = r.passed.error := error_of_status tested.met
      rw [herror, recorded_error, hnone]
      exact (before.fresh hS h₀).error
    · simp [Solution.failure?, Solution.success, ReturnCode.successful, hsuccess]
  | @failed r t t' f before active raised broken ended =>
    have hfailed : s.code = f.returnCode := by
      rw [hkept (by rw [recorded_code, ended.code_eq]; exact f.returnCode_ne_default),
        recorded_code, ended.code_eq]
    have hstored : s.error = some f := by rw [herror, recorded_error, ended.error_eq]
    refine .failed before active raised ?_ hfailed hstored ?_
    · rw [hsteps, recorded_steps, ended.steps_eq, steps_of_status broken.status]
    · exact Solution.failure?_of_error (by rw [hfailed]; exact f.returnCode_ne_success) hstored
  | exhausted before limit =>
    have hfresh := before.fresh hS h₀
    have hlimit : s.code = .maxIters := by
      rw [hcode, Run.finalCode, if_pos hfresh.code, if_pos limit]
    have hnone : s.error = none := herror.trans hfresh.error
    refine .exhausted before hu hfu hsteps ?_ hlimit hnone ⟨s.codeFailure, ?_, ?_⟩
    · have hmaxiters := hfresh.maxiters
      have hle := hfresh.steps_le
      omega
    · simp [Solution.failure?, Solution.success, ReturnCode.successful, hlimit, hnone]
    · simp [Solution.codeFailure, hlimit]

/-- A run that has started is fresh, and its iterate and the guess have the size of their shape. -/
theorem Run.start_fresh {world : σ} (h : Run.start S c world = .ok r) :
    Fresh c (r.headed S) ∧ (r.headed S).u.size = Tensor.sizeOf c.problem.guess.shape ∧
      c.problem.size = Tensor.sizeOf c.problem.guess.shape := by
  obtain ⟨fu, work, system, ext, started⟩ := Run.start_ok h
  have hsize := Problem.Answered.size_eq ⟨_, _, started.residual⟩
  rw [started.eq]
  exact ⟨⟨rfl, rfl, rfl, rfl, started.limit⟩, hsize, hsize⟩

/-- A run that nothing interrupts ends with a solution, in one of the three ways. -/
theorem Run.finish_endsAs {world : σ} (hS : S.Proceeds c) (hstart : Run.start S c world = .ok r)
    (hclean : Clean S c (r.headed S)) :
    (finish S c).Ends r (fun s _ => ∃ k, s.EndsAs S c (r.headed S) k) (fun _ _ => False) := by
  obtain ⟨hfresh, hsize, hp⟩ := start_fresh hstart
  have hfuel : (r.headed S).maxiters ≤
      (r.headed S).steps + (r.maxiters - r.steps).toNat := by
    change r.maxiters ≤ r.steps + _
    omega
  have hloop := loop_closes hS hclean hfresh _ hfuel .start
  simp only [finish, ends_bind, ends_get, ends_print, ends_modify, ends_ofFault]
  refine Ends.mono hloop ?_ (fun _ _ h => h)
  intro _ e hends
  rcases hends with ⟨k, hcloses⟩
  have he : (e.closed c).u.size = c.problem.size := (hcloses.size_eq hS hsize).trans hp.symm
  obtain ⟨s, hs⟩ := Run.solution_of_sizes hp he
  constructor
  · intro s' hs'
    have hsame : Except.ok s' = Except.ok s := hs'.symm.trans hs
    cases hsame
    exact ⟨k, hcloses.endsAs hS hfresh hs⟩
  · intro f hf
    have hsame : Except.error f = Except.ok s := hf.symm.trans hs
    cases hsame

end Solutions

/-- **The classification of a plain solve.**  A solve that has started and whose steps raise nothing
but failures answers a solution, with no more steps than its limit, that ends in exactly one of the
three ways: with a check of the last step that is passed at what is returned, with the failure of
the last step, or with all steps used up. -/
theorem Algorithm.solve_classified (a : Algorithm σ R K) (c : Setup σ R K) (world : σ)
    {r : Run σ R K a.State} (hstart : Run.start a.strategy c world = .ok r)
    (hclean : Run.Clean a.strategy c (r.headed a.strategy)) :
    ∃ o, a.solve c world = .ok o ∧ (o.solution.stats.steps : Int) ≤ c.options.maxiters ∧
      ∃! k, o.solution.EndsAs a.strategy c (r.headed a.strategy) k := by
  have hS : a.strategy.Proceeds c := a.proceeds c
  have hfinish := Run.finish_endsAs hS hstart hclean
  rcases hf : (Run.finish a.strategy c).eval r with ⟨e | s, t⟩
  · exact (hfinish.error hf).elim
  · obtain ⟨k, hk⟩ := hfinish.ok hf
    refine ⟨⟨s, t.printed, t.work.warnings, t.work.world⟩, ?_, ?_, k, hk, fun k' hk' => ?_⟩
    · rw [solve_eq, outcome, Strategy.solve, hstart]
      simp only [bind, Except.bind, hf]
      rfl
    · exact hk.steps_le hS (Run.start_fresh hstart).1
    · exact hk'.ending_eq.symm.trans hk.ending_eq

/-- A contained strategy without faults raises nothing but failures. -/
theorem Strategy.Contained.clean {P : K → Prop} {m : Nat} {I : Workspace σ R K → Vec K → X → Prop}
    {B : Run σ R K X → Fault → Prop} {r : Run σ R K X} (hS : S.Contained c P m I B)
    (hc : c.Fits P m) (hr : r.Stands c P m I) (hB : ∀ t f, ¬B t f) : Run.Clean S c r := by
  intro t ht hactive e t' hraised
  obtain ⟨hgoing, hown⟩ := (hS.leads hc ht.leads hr).of_isActive hactive
  obtain ⟨f, -, hf⟩ := (hS.step hc hgoing hown).error hraised
  exact hB t f hf

theorem plainProblem_clean {r : Run Unit Numeral Number plainNewton.State}
    (hstart : Run.start plainNewton.strategy (plainSetup plainProblem) () = .ok r) :
    Run.Clean plainNewton.strategy (plainSetup plainProblem) (r.headed plainNewton.strategy) := by
  obtain ⟨I, hcontained, hI⟩ := Algorithm.contained plainNewton nofun plainProblem_fits hstart
  obtain ⟨hgoing, -, hprepared⟩ := Run.start_going plainProblem_fits hstart
  have hstands : (r.headed plainNewton.strategy).Stands (plainSetup plainProblem) _ 2 I :=
    .going (hgoing.of_core rfl rfl rfl rfl) hI
  refine hcontained.clean plainProblem_fits hstands fun t f hescapes => ?_
  rcases hescapes with htermination | hown
  · cases htermination with
    | misaligned relative => cases relative
  · have hsystem := Newton.start_byMatrix (a := .standard .direct) rfl hprepared
    exact Newton.not_escapes (fun x hx => hx) hsystem hown

theorem plainProblem_classified :
    ∃ r, Run.start plainNewton.strategy (plainSetup plainProblem) () = .ok r ∧
      Run.Clean plainNewton.strategy (plainSetup plainProblem) (r.headed plainNewton.strategy) ∧
      ∃ o, plainNewton.solve (plainSetup plainProblem) () = .ok o ∧
        (o.solution.stats.steps : Int) ≤ 5 ∧ ∃! k, o.solution.EndsAs plainNewton.strategy
          (plainSetup plainProblem) (r.headed plainNewton.strategy) k := by
  have hstarts : (Run.start plainNewton.strategy (plainSetup plainProblem) ()).toOption.isSome =
      true := by decide +kernel
  rcases hstart : Run.start plainNewton.strategy (plainSetup plainProblem) () with e | r
  · rw [hstart] at hstarts
    cases hstarts
  · have hclean := plainProblem_clean hstart
    exact ⟨r, rfl, hclean,
      Algorithm.solve_classified plainNewton (plainSetup plainProblem) () hstart hclean⟩

end RootFinding
