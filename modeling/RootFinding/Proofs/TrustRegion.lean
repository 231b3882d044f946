import RootFinding.Proofs.Course
import RootFinding.Proofs.JacobianCalls
import RootFinding.Proofs.TrustRadius

/-!
# Steps of a trust region run

A step of the trust region strategy taken apart, over any scalars. It proposes a trial step, tells
its ratio to the controller of the radius, takes the trial or leaves the iterate alone, and checks
the iterate.

* `TrustRegion.Verdict c r t`: from `r` a trial step was proposed, and `t` has the iterate of the
  trial if the controller accepted it and that of `r` if not.
* `TrustRegion.step_ends`: a step that returns has reached a verdict; a step that fails has failed
  in the proposal or in the controller, which leave the iterate alone (`TrustRegion.NoVerdict`),
  or in the check after a verdict.
* `TrustRegion.ModelAt`: the model of the residual that belongs to a point.
  `TrustRegion.propose_proposed`: every proposal leaves the model of the present iterate.
-/

namespace RootFinding

open Action

variable {σ R K : Type} [Scalar R] [Entry R K] {c : Setup σ R K}

namespace TrustRegion

/-- `J` and `m` are the Jacobian and the model of the residual at `u`, where it is `fu`: the Newton
step against the solution of `J x = fu` that the linear system gives, the gradient, and the product
of `J` with it. -/
structure ModelAt (c : Setup σ R K) (s : JacobianSettings R) (u fu : Vec K) (J : Matrix R K)
    (m : LinearModel K) : Prop where
  jacobian : ∃ w w', (c.problem.jacobianAt s u (some fu)).eval w = (.ok J, w')
  newton : ∃ w w₁ w₂ x, (LinearSystem.factorize c.backend J).eval w = (.ok (), w₁) ∧
    (LinearSystem.solve c.backend c.problem.evaluate fu).eval w₁ = (.ok x, w₂) ∧ m.newton = -x
  gradient : J.applyTranspose fu = .ok m.gradient
  image : ∃ w w', (J.apply c.problem.evaluate m.gradient).eval w = (.ok m.image, w')

/-- The stored Jacobian and the kept model are those of the present iterate. -/
def HasModel (c : Setup σ R K) (r : Run σ R K (State R K)) : Prop :=
  ∃ J m, r.work.jacobian = some J ∧ r.ext.model = some m ∧
    ModelAt c r.ext.jacobians r.u r.fu J m

theorem HasModel.of_eq {r t : Run σ R K (State R K)} (h : HasModel c r)
    (hJ : t.work.jacobian = r.work.jacobian) (hm : t.ext.model = r.ext.model)
    (hs : t.ext.jacobians = r.ext.jacobians) (hu : t.u = r.u) (hfu : t.fu = r.fu) :
    HasModel c t := by
  unfold HasModel
  rw [hJ, hm, hs, hu, hfu]
  exact h

/-! ## Proposals -/

/-- What a new model changes, and that it is the model of the present iterate. -/
structure Remodelled (c : Setup σ R K) (r t : Run σ R K (State R K)) : Prop where
  rest : t = { r with work := t.work, ext := { r.ext with renew := false, model := t.ext.model } }
  model : c.backend.Frames → HasModel c t

theorem remodel_ends (r : Run σ R K (State R K)) :
    (remodel c).Ends r (fun _ t => Remodelled c r t)
      (fun _ t => t = { r with work := t.work }) := by
  simp only [remodel, ends_bind, ends_get, Run.ends_onWork, ends_ofFault, Run.ends_update]
  refine ends_iff.2 ⟨fun J w₁ h₁ => ?_, fun _ _ _ => trivial⟩
  refine ends_iff.2 ⟨fun _ w₂ h₂ => ?_, fun _ _ _ => trivial⟩
  refine ends_iff.2 ⟨fun x w₃ h₃ => ?_, fun _ _ _ => trivial⟩
  refine ⟨fun gradient hgradient => ?_, fun _ _ => trivial⟩
  refine ends_iff.2 ⟨fun image w₄ h₄ => ⟨rfl, fun hB => ?_⟩, fun _ _ _ => trivial⟩
  have hF : ∀ v, Keeps Workspace.jacobian (c.problem.evaluate v) := fun v w =>
    congrArg Prod.fst (c.problem.evaluate_keeps v w)
  have hJ₁ : w₁.jacobian = some J := ((c.problem.jacobianAt_spec _ _ _ _).ok h₁).stored
  have hJ₂ : w₂.jacobian = w₁.jacobian := ((LinearSystem.factorize_keeps _ J).ends w₁).ok h₂
  have hJ₃ : w₃.jacobian = w₂.jacobian := ((LinearSystem.solve_keeps
    LinearSystem.spared_jacobian hB hF _).ends w₂).ok h₃
  have hJ₄ : w₄.jacobian = w₃.jacobian := ((J.apply_keeps hF gradient).ends w₃).ok h₄
  refine ⟨J, ⟨-x, gradient, image⟩, by rw [hJ₄, hJ₃, hJ₂, hJ₁], rfl, ?_⟩
  exact ⟨⟨_, _, h₁⟩, ⟨w₁, w₂, w₃, x, h₂, h₃, rfl⟩, hgradient, ⟨_, _, h₄⟩⟩

/-- A trial step from `r` that leaves `t`. -/
structure Tried (r : Run σ R K (State R K)) (x : Trial R K) (t : Run σ R K (State R K)) :
    Prop where
  rest : t = { r with work := t.work }
  jacobian : t.work.jacobian = r.work.jacobian
  ratio : ∃ predicted, x.ratio = reductionRatio r.fu x.fu predicted

theorem trial_tried (r : Run σ R K (State R K)) :
    (trial c).Ends r (fun x t => Tried r x t) (fun _ t => t = { r with work := t.work }) := by
  have hF : ∀ v, Keeps Workspace.jacobian (c.problem.evaluate v) := fun v w =>
    congrArg Prod.fst (c.problem.evaluate_keeps v w)
  simp only [trial, ends_bind, ends_get, ends_ofFault]
  refine ⟨?_, fun _ _ => trivial⟩
  intro x _
  rcases x with ⟨m, J⟩
  refine ⟨fun du _ => ?_, fun _ _ => trivial⟩
  rw [Run.ends_evaluate]
  refine ((hF _).ends r.work).mono (fun fu w₁ h₁ => ?_) (fun _ _ _ => rfl)
  rw [Run.ends_onWork]
  refine ((J.apply_keeps hF du).ends w₁).mono (fun change w₂ h₂ => ?_) (fun _ _ _ => rfl)
  exact ⟨rfl, h₂.trans h₁, _, rfl⟩

/-- A proposal from `r` that leaves `t`. -/
structure Proposed (c : Setup σ R K) (r : Run σ R K (State R K)) (x : Trial R K)
    (t : Run σ R K (State R K)) : Prop where
  rest : t = { r with work := t.work, ext := t.ext }
  jacobians : t.ext.jacobians = r.ext.jacobians
  radius : t.ext.radius = r.ext.radius
  renew : t.ext.renew = false
  ratio : ∃ predicted, x.ratio = reductionRatio r.fu x.fu predicted
  model : c.backend.Frames → (r.ext.renew = false → HasModel c r) → HasModel c t

/-- The state `s` that a step from `r` makes its trial from, with a kept model or a new one. -/
structure Modelled (c : Setup σ R K) (r s : Run σ R K (State R K)) : Prop where
  rest : s = { r with work := s.work, ext := s.ext }
  jacobians : s.ext.jacobians = r.ext.jacobians
  radius : s.ext.radius = r.ext.radius
  renew : s.ext.renew = false
  model : c.backend.Frames → (r.ext.renew = false → HasModel c r) → HasModel c s

theorem Modelled.trial_ends {r s : Run σ R K (State R K)} (h : Modelled c r s) :
    (trial c).Ends s (fun x t => Proposed c r x t)
      (fun _ t => t = { r with work := t.work, ext := t.ext } ∧ t.ext.radius = r.ext.radius) := by
  apply (trial_tried s).mono
  · intro x t ht
    have hext : t.ext = s.ext := congrArg (·.ext) ht.rest
    have hu : t.u = s.u := congrArg (·.u) ht.rest
    have hfu : t.fu = s.fu := congrArg (·.fu) ht.rest
    refine ⟨?_, by rw [hext, h.jacobians], by rw [hext, h.radius], by rw [hext, h.renew], ?_, ?_⟩
    · rw [hext]
      exact ht.rest.trans (by rw [h.rest])
    · obtain ⟨predicted, hratio⟩ := ht.ratio
      exact ⟨predicted, by rw [hratio, h.rest]⟩
    · intro hB hmodel
      exact (h.model hB hmodel).of_eq ht.jacobian (by rw [hext]) (by rw [hext]) hu hfu
  · intro _ t ht
    have hext : t.ext = s.ext := congrArg (·.ext) ht
    refine ⟨?_, by rw [hext, h.radius]⟩
    rw [hext]
    exact ht.trans (by rw [h.rest])

theorem propose_proposed (r : Run σ R K (State R K)) :
    (propose c).Ends r (fun x t => Proposed c r x t)
      (fun _ t => t = { r with work := t.work, ext := t.ext } ∧ t.ext.radius = r.ext.radius) := by
  simp only [propose, ends_bind, ends_get]
  split
  next =>
    apply (remodel_ends r).bind
    · intro _ s h
      have hext := congrArg (·.ext) h.rest
      have hmodelled : Modelled c r s := by
        refine ⟨?_, by rw [hext], by rw [hext], by rw [hext], fun hB _ => h.model hB⟩
        rw [hext]
        exact h.rest
      exact hmodelled.trial_ends
    · intro _ t ht
      have hext : t.ext = r.ext := congrArg (·.ext) ht
      rw [hext]
      exact ⟨ht, rfl⟩
  next hrenew =>
    have hrenew : r.ext.renew = false := by simpa using hrenew
    have hmodelled : Modelled c r r := ⟨rfl, rfl, rfl, hrenew, fun _ h => h hrenew⟩
    exact hmodelled.trial_ends

/-! ## Verdicts -/

/-- What the controller answers to a trial step, and the radius that it leaves. -/
def verdict (x : Trial R K) (s : Run σ R K (State R K)) :
    Except (Thrown R K) Bool × TrustRadius R :=
  (TrustRadius.update x.ratio x.du.norm).eval s.ext.radius

theorem update_of_verdict {x : Trial R K} {s : Run σ R K (State R K)}
    {answer : Except (Thrown R K) Bool} (h : (verdict x s).1 = answer) :
    (TrustRadius.update x.ratio x.du.norm).eval s.ext.radius = (answer, (verdict x s).2) := by
  rw [← h]
  rfl

/-- From `r` the trial `x` was proposed in the state `s`, and the controller accepted it or not;
`t` has gone on to the trial in the first case only. -/
structure Verdict (c : Setup σ R K) (r : Run σ R K (State R K)) (x : Trial R K)
    (s : Run σ R K (State R K)) (accepted : Bool) (t : Run σ R K (State R K)) : Prop where
  proposed : (propose c).eval r = (.ok x, s)
  judged : (verdict x s).1 = .ok accepted
  ext : t.ext = { s.ext with radius := (verdict x s).2, renew := accepted }
  work : t.work = s.work
  u : t.u = if accepted then x.u else r.u
  fu : t.fu = if accepted then x.fu else r.fu
  error : t.error = r.error

theorem Verdict.proposal {r s t : Run σ R K (State R K)} {x : Trial R K} {accepted : Bool}
    (h : Verdict c r x s accepted t) : Proposed c r x s :=
  (propose_proposed r).ok h.proposed

/-- What changes the checks and the outcome alone does not change the verdict. -/
theorem Verdict.of_eq {r s t t' : Run σ R K (State R K)} {x : Trial R K} {accepted : Bool}
    (h : Verdict c r x s accepted t) (hext : t'.ext = t.ext) (hwork : t'.work = t.work)
    (hu : t'.u = t.u) (hfu : t'.fu = t.fu) (herror : t'.error = t.error) :
    Verdict c r x s accepted t' :=
  ⟨h.proposed, h.judged, by rw [hext, h.ext], by rw [hwork, h.work], by rw [hu, h.u],
    by rw [hfu, h.fu], by rw [herror, h.error]⟩

/-- The controller keeps its settings, whatever it answers. -/
theorem verdict_settings (x : Trial R K) (s : Run σ R K (State R K)) :
    (verdict x s).2.settings = s.ext.radius.settings :=
  TrustRadius.update_keeps (K := K) x.ratio x.du.norm s.ext.radius

/-- A step that has failed before there was a verdict. -/
inductive NoVerdict (c : Setup σ R K) (r : Run σ R K (State R K)) (e : Thrown R K)
    (t : Run σ R K (State R K)) : Prop
  | proposal (failed : (propose c).eval r = (.error e, t)) (core : t.core = r.core)
    (radius : t.ext.radius = r.ext.radius)
  | controller (x : Trial R K) (s : Run σ R K (State R K))
    (proposed : (propose c).eval r = (.ok x, s)) (judged : (verdict x s).1 = .error e)
    (core : t.core = r.core) (radius : t.ext.radius = (verdict x s).2)

theorem NoVerdict.core_eq {r t : Run σ R K (State R K)} {e : Thrown R K}
    (h : NoVerdict c r e t) : t.core = r.core := by
  cases h with
  | proposal _ core => exact core
  | controller x s _ _ core => exact core

theorem NoVerdict.settings_eq {r t : Run σ R K (State R K)} {e : Thrown R K}
    (h : NoVerdict c r e t) : t.ext.radius.settings = r.ext.radius.settings := by
  cases h with
  | proposal _ _ radius => rw [radius]
  | controller x s proposed _ _ radius =>
    rw [radius, verdict_settings, ((propose_proposed r).ok proposed).radius]

/-- A trial step and its verdict, before the check. -/
def attempt (c : Setup σ R K) : Stepping σ R K (State R K) Unit := propose c >>= conclude

theorem attempt_ends (r : Run σ R K (State R K)) :
    (attempt c).Ends r
      (fun _ t => (∃ x s accepted, Verdict c r x s accepted t) ∧ t.checker = r.checker)
      (fun e t => NoVerdict c r e t) := by
  unfold attempt
  rw [ends_bind]
  rw [ends_iff]
  constructor
  · intro x s hs
    have h : Proposed c r x s := (propose_proposed r).ok hs
    have hcore : s.core = r.core := by
      rw [h.rest]
      rfl
    simp only [conclude, judge, ends_bind, ends_get, Run.ends_onExt, ends_within]
    rw [ends_iff]
    constructor
    · intro accepted ρ hρ
      have hjudged : verdict x s = (.ok accepted, ρ) := hρ
      cases accepted with
      | true =>
        simp only [ends_modify, if_true, ends_bind, Run.ends_moveTo, Run.ends_update]
        refine ⟨⟨x, s, true, hs, by rw [hjudged], by rw [hjudged], rfl, rfl, rfl, ?_⟩, ?_⟩
        · rw [h.rest]
        · exact congrArg (·.2.2) hcore
      | false =>
        have hext : { s.ext with radius := ρ } = { s.ext with radius := ρ, renew := false } := by
          rw [← h.renew]
        have hcore' := hcore
        simp only [Run.core, Prod.mk.injEq] at hcore'
        rcases hcore' with ⟨hu, hfu, hchecker⟩
        simp only [ends_modify, Bool.false_eq_true, if_false, ends_bind, ends_get, Run.ends_notice]
        refine ⟨⟨x, s, false, hs, by rw [hjudged], ?_, rfl, hu, hfu, ?_⟩, hchecker⟩
        · rw [hjudged]
          exact hext
        · rw [h.rest]
          rfl
    · intro e ρ hρ
      exact .controller x s hs (congrArg Prod.fst hρ) hcore (congrArg Prod.snd hρ).symm
  · intro e t ht
    obtain ⟨rest, radius⟩ := (propose_proposed r).error ht
    refine .proposal ht ?_ radius
    rw [rest]
    rfl

/-- The step of the strategy is an attempt and a check. -/
theorem ends_step {r : Run σ R K (State R K)} {Q : Unit → Run σ R K (State R K) → Prop}
    {E : Thrown R K → Run σ R K (State R K) → Prop} :
    (step c).Ends r Q E ↔
      (attempt c).Ends r (fun _ t => Run.check.Ends t (fun _ => Q ()) E) E := by
  simp only [step, attempt, ends_bind, ends_pure]

/-- A step that returns has reached a verdict, and so has one that fails in the check. -/
theorem step_ends (r : Run σ R K (State R K)) :
    (step c).Ends r (fun _ t => ∃ x s accepted, Verdict c r x s accepted t)
      (fun e t => NoVerdict c r e t ∨ ∃ x s accepted, Verdict c r x s accepted t) := by
  rw [ends_step]
  refine (attempt_ends r).mono ?_ (fun _ _ h => .inl h)
  intro _ t hattempt
  rcases hattempt with ⟨⟨x, s, accepted, h⟩, -⟩
  apply t.check_frame.mono
  · intro _ t' hframe
    rcases hframe with ⟨checker, code, stopped, rfl⟩
    exact ⟨x, s, accepted, h.of_eq rfl rfl rfl rfl rfl⟩
  · intro _ t' hframe
    rcases hframe with ⟨checker, rfl⟩
    exact .inr ⟨x, s, accepted, h.of_eq rfl rfl rfl rfl rfl⟩

/-- A verdict leaves the model of the present iterate, unless the next step makes a new one. -/
theorem Verdict.hasModel {r s t : Run σ R K (State R K)} {x : Trial R K} {accepted : Bool}
    (h : Verdict c r x s accepted t) (hB : c.backend.Frames)
    (hr : r.ext.renew = false → HasModel c r) (ht : t.ext.renew = false) : HasModel c t := by
  cases accepted with
  | true =>
    rw [h.ext] at ht
    cases ht
  | false =>
    have hmodel : HasModel c s := h.proposal.model hB hr
    have hrest := h.proposal.rest
    refine hmodel.of_eq (by rw [h.work]) (by rw [h.ext]) (by rw [h.ext]) ?_ ?_
    · rw [h.u, hrest]
      rfl
    · rw [h.fu, hrest]
      rfl

end TrustRegion

end RootFinding
