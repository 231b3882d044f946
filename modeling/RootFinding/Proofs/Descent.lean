import RootFinding.Proofs.Consistency
import RootFinding.Proofs.TrustRadius
import RootFinding.Proofs.TrustRegion

/-!
# Descent of trust region runs

In exact arithmetic every trial step that the controller of the radius accepts has a finite
residual of strictly smaller norm.

* `TrustRegion.reductionRatio_descends`: the reason, a positive ratio of the reductions.
* `TrustRegion.Regular`: what holds at every boundary of a run, kept by `Regular.step`.
* `TrustRegion.Bounded`: the residual at every iterate that a run may fall back to is within a
  bound.
* `TrustRegion.run_descends`: the norms along a run, the norm of the solution, and the model that
  is kept between steps.
-/

namespace RootFinding

open Action Exact

namespace TrustRegion

variable {σ K : Type} [Entry Exact K] {c : Setup σ Exact K}

/-! ## The ratio of the reductions -/

/-- Half the square of a norm, as a real number or not. -/
theorem half_square {f : Vec K} :
    (∃ x, 0 ≤ x ∧ f.norm = real x ∧
      (0.5 : Exact) * Scalar.square f.norm = real (0.5 * (x * x))) ∨
    f.isFinite = false ∧ ((0.5 : Exact) * Scalar.square f.norm = posInf ∨
      (0.5 : Exact) * Scalar.square f.norm = undefined) := by
  cases hf : f.isFinite with
  | true =>
    obtain ⟨x, hx, hnorm⟩ := norm_real hf
    exact .inl ⟨x, hx, hnorm, by rw [hnorm]; rfl⟩
  | false =>
    refine .inr ⟨rfl, ?_⟩
    rcases norm_not_real hf with h | h
    · exact .inl (by rw [h, square_posInf, ofScientific_eq, real_mul_posInf (by norm_num)])
    · exact .inr (by rw [h, square_undefined, mul_undefined])

/-- A predicted reduction that is positive is a real number. -/
theorem expected_real {b : ℝ} {predicted : Vec K}
    (h : (0.0 : Exact) < real b - (0.5 : Exact) * Scalar.square predicted.norm) :
    ∃ e, 0 < e ∧ real b - (0.5 : Exact) * Scalar.square predicted.norm = real e := by
  rcases half_square (f := predicted) with ⟨p, -, -, hp⟩ | ⟨-, hp | hp⟩
  · rw [hp, real_sub, ofScientific_eq, real_lt] at h
    refine ⟨b - 0.5 * (p * p), ?_, by rw [hp, real_sub]⟩
    norm_num at h
    linarith
  · rw [hp, real_sub_posInf] at h
    exact (not_lt_negInf h).elim
  · rw [hp, sub_undefined] at h
    exact (not_lt_undefined h).elim

/-- A ratio that is positive belongs to a finite residual of smaller norm. -/
theorem reductionRatio_descends {before after predicted : Vec K} (hbefore : before.isFinite)
    {x : ℝ} (hratio : reductionRatio before after predicted = real x) (hx : 0 < x) :
    after.isFinite ∧ after.norm < before.norm := by
  obtain ⟨b, hb, hbnorm⟩ := norm_real hbefore
  have hbloss : (0.5 : Exact) * Scalar.square before.norm = real (0.5 * (b * b)) := by
    rw [hbnorm]
    rfl
  unfold reductionRatio at hratio
  simp only [hbloss] at hratio
  split at hratio
  next hexpected =>
    obtain ⟨e, he, hereal⟩ := expected_real hexpected
    rw [hereal] at hratio
    rcases half_square (f := after) with ⟨a, ha, hanorm, hp⟩ | ⟨-, hp | hp⟩
    · rw [hp, real_sub, real_div he.ne', real.injEq] at hratio
      have hfinite : after.isFinite = true := by
        rw [← (isSize_norm after).isReal, hanorm]
        rfl
      refine ⟨hfinite, ?_⟩
      rw [hanorm, hbnorm, real_lt]
      have hless : 0 < 0.5 * (b * b) - 0.5 * (a * a) := by
        have := mul_pos hx he
        rw [← hratio, div_mul_cancel₀ _ he.ne'] at this
        exact this
      nlinarith
    · rw [hp, real_sub_posInf, negInf_div_real he] at hratio
      cases hratio
    · rw [hp, sub_undefined, undefined_div] at hratio
      cases hratio
  · cases hratio

/-! ## Steps -/

/-- An accepted trial has a finite residual of smaller norm. -/
theorem Verdict.descends {r s t : Run σ Exact K (State Exact K)} {x : Trial Exact K}
    (h : Verdict c r x s true t) (hsettings : r.ext.radius.settings.refusal? = none)
    (hfinite : r.fu.isFinite) : x.fu.isFinite ∧ x.fu.norm < r.fu.norm := by
  obtain ⟨step, below, factor, hs⟩ := RadiusSettings.accepted hsettings
  have hproposed : Proposed c r x s := h.proposal
  have haccepted : real step < TrustRadius.effective x.ratio := by
    have h := ((TrustRadius.update_ends _ _ _).ok (update_of_verdict h.judged)).2
    rw [hproposed.radius, hs.step_eq] at h
    exact of_decide_eq_true h.symm
  obtain ⟨y, hy, hstep⟩ := TrustRadius.real_of_lt_effective haccepted
  obtain ⟨predicted, hratio⟩ := hproposed.ratio
  rw [hy] at hratio
  exact reductionRatio_descends hfinite hratio.symm (lt_of_le_of_lt hs.step_nonneg hstep)

/-! ## Runs -/

/-- What holds at every boundary of a run with accepted settings: the settings are kept, a run that
goes on has not failed, and a run that has not failed has a finite residual, and the model of its
iterate unless the next step makes a new one. -/
structure Regular (a : TrustRegion Exact) (c : Setup σ Exact K)
    (r : Run σ Exact K (State Exact K)) : Prop where
  settings : r.ext.radius.settings = a.radius
  running : r.stopped = false → r.error = none
  finite : r.error = none → r.fu.isFinite
  model : c.backend.Frames → r.error = none → r.ext.renew = false → HasModel c r

theorem Regular.verdict {a : TrustRegion Exact} {r s t : Run σ Exact K (State Exact K)}
    {x : Trial Exact K} {accepted : Bool} (ha : a.radius.refusal? = none) (hr : Regular a c r)
    (herror : r.error = none) (h : Verdict c r x s accepted t) : Regular a c t := by
  refine ⟨?_, fun _ => by rw [h.error, herror], fun _ => ?_, fun hB _ hrenew => ?_⟩
  · rw [h.ext, ← hr.settings, ← h.proposal.radius]
    exact verdict_settings x s
  · cases accepted with
    | true =>
      rw [h.fu]
      exact (h.descends (by rw [hr.settings, ha]) (hr.finite herror)).1
    | false =>
      rw [h.fu]
      exact hr.finite herror
  · exact h.hasModel hB (hr.model hB herror) hrenew

/-- No verdict makes a norm larger. -/
theorem Verdict.norm_le {r s t : Run σ Exact K (State Exact K)} {x : Trial Exact K}
    {accepted : Bool} (h : Verdict c r x s accepted t)
    (hsettings : r.ext.radius.settings.refusal? = none) (hfinite : r.fu.isFinite) :
    t.fu.norm ≤ r.fu.norm := by
  rw [h.fu]
  cases accepted with
  | true => exact le_of_lt (h.descends hsettings hfinite).2
  | false => exact norm_le_self hfinite

theorem Regular.of_recorded {a : TrustRegion Exact} {r : Run σ Exact K (State Exact K)}
    (before : Vec K) (h : Regular a c r) : Regular a c (Run.recorded c before r) := by
  obtain ⟨trace, printed, hr⟩ := Run.recorded_eq c before r
  rw [hr]
  exact ⟨h.settings, h.running, h.finite, h.model⟩

/-- A step of the loop keeps the invariant, and unless it fails it makes no norm larger. -/
theorem Regular.step {a : TrustRegion Exact} {r t : Run σ Exact K (State Exact K)}
    (ha : a.radius.refusal? = none) (hr : Regular a c r) (hactive : r.isActive)
    (h : (Run.step a.strategy c).eval r = (.ok (), t)) :
    Regular a c t ∧ (t.error = none → t.fu.norm ≤ r.fu.norm) := by
  have herror : r.error = none := hr.running (Run.stopped_of_isActive hactive)
  have hsettings : r.ext.radius.settings.refusal? = none := by rw [hr.settings, ha]
  rcases Run.step_cases h with ⟨s, hs, rfl⟩ | ⟨f, s, s', hs, hend, rfl⟩
  · obtain ⟨x, s', accepted, hverdict⟩ := (step_ends r).ok hs
    refine ⟨(hr.verdict ha herror hverdict).of_recorded r.u, fun _ => ?_⟩
    rw [Run.recorded_fu]
    exact hverdict.norm_le hsettings (hr.finite herror)
  · have hkept : s.ext.radius.settings = a.radius := by
      rcases (step_ends r).error hs with hno | ⟨x, s₀, accepted, hverdict⟩
      · rw [hno.settings_eq, hr.settings]
      · exact (hr.verdict ha herror hverdict).settings
    have hfailed : s'.error ≠ none := by
      rw [hend.error_eq]
      exact Option.some_ne_none f
    refine ⟨Regular.of_recorded r.u ⟨?_, ?_, ?_, ?_⟩, fun hnone => ?_⟩
    · rw [hend.ext_eq, hkept]
    · rw [hend.stopped_eq]
      exact fun h => (Bool.noConfusion h)
    · exact fun hnone => (hfailed hnone).elim
    · exact fun _ hnone => (hfailed hnone).elim
    · rw [Run.recorded_error] at hnone
      exact (hfailed hnone).elim

theorem Regular.of_start {a : TrustRegion Exact} {world : σ} {r : Run σ Exact K (State Exact K)}
    (h : Run.start a.strategy c world = .ok r) (hfinite : r.fu.isFinite) : Regular a c r := by
  have hprepared := start_ok (Run.start_prepared h)
  refine ⟨congrArg TrustRadius.settings hprepared.radius, fun _ => Run.start_error h,
    fun _ => hfinite, fun _ _ hkept => ?_⟩
  exact absurd (hprepared.renew.symm.trans hkept) (by decide)

theorem Regular.leads {a : TrustRegion Exact} {r t : Run σ Exact K (State Exact K)}
    (ha : a.radius.refusal? = none) (hr : Regular a c r) (h : Run.Leads a.strategy c r t) :
    Regular a c t :=
  h.invariant hr (fun _ hs => ⟨hs.settings, hs.running, hs.finite, hs.model⟩)
    (fun _ _ hs hactive hstep => (hs.step ha hactive hstep).1)

/-- Along a run that has not failed the norms do not increase. -/
theorem Regular.norm_le {a : TrustRegion Exact} {r t : Run σ Exact K (State Exact K)}
    (ha : a.radius.refusal? = none) (hr : Regular a c r) (h : Run.Leads a.strategy c r t)
    (herror : t.error = none) : t.fu.norm ≤ r.fu.norm := by
  induction h with
  | refl => exact norm_le_self (hr.finite herror)
  | headline _ ih => exact ih herror
  | @step s t hleads hactive hstep ih =>
    have hs : Regular a c s := hr.leads ha hleads
    have hbefore := ih (hs.running (Run.stopped_of_isActive hactive))
    exact le_trans ((hs.step ha hactive hstep).2 herror) hbefore

/-! ## Falling back -/

variable {F : Vec K → Except (Thrown Exact K) (Vec K)} {bound : Exact}

/-- The residual at a point is finite with a norm within the bound. -/
def BoundedAt (F : Vec K → Except (Thrown Exact K) (Vec K)) (bound : Exact) (v : Vec K) : Prop :=
  ∃ f, F v = .ok f ∧ f.isFinite ∧ f.norm ≤ bound

/-- The residual at the iterate and at the remembered iterates is within the bound. -/
structure Bounded (F : Vec K → Except (Thrown Exact K) (Vec K)) (bound : Exact)
    (r : Run σ Exact K (State Exact K)) : Prop where
  fits : F r.u = .ok r.fu
  finite : r.fu.isFinite
  norm_le : r.fu.norm ≤ bound
  remembers : r.checker.Remembers (BoundedAt F bound)

theorem Bounded.of_core {r t : Run σ Exact K (State Exact K)} (h : Bounded F bound r)
    (ht : t.core = r.core) : Bounded F bound t := by
  simp only [Run.core, Prod.mk.injEq] at ht
  rcases ht with ⟨hu, hfu, hk⟩
  exact ⟨by rw [hu, hfu, h.fits], by rw [hfu, h.finite], by rw [hfu]; exact h.norm_le,
    by rw [hk]; exact h.remembers⟩

theorem Bounded.verdict {r s t : Run σ Exact K (State Exact K)} {x : Trial Exact K}
    {accepted : Bool} (hF : c.problem.Computes F) (hr : Bounded F bound r)
    (hsettings : r.ext.radius.settings.refusal? = none) (h : Verdict c r x s accepted t)
    (hk : t.checker = r.checker) : Bounded F bound t := by
  have hle : t.fu.norm ≤ bound := le_trans (h.norm_le hsettings hr.finite) hr.norm_le
  refine ⟨?_, ?_, hle, by rw [hk]; exact hr.remembers⟩
  · rw [h.u, h.fu]
    cases accepted with
    | true => exact hF.of_answered ((propose_ends r).ok h.proposed).1
    | false => exact hr.fits
  · rw [h.fu]
    cases accepted with
    | true => exact (h.descends hsettings hr.finite).1
    | false => exact hr.finite

theorem Bounded.check {r : Run σ Exact K (State Exact K)} (hr : Bounded F bound r) :
    Run.check.Ends r (fun _ t => Bounded F bound t) (fun _ t => Bounded F bound t) := by
  simp only [Run.check, ends_bind, ends_get, ends_within]
  refine (Checker.check_remembers r.previous
    (fun _ _ => ⟨r.fu, hr.fits, hr.finite, hr.norm_le⟩) hr.remembers).mono ?_ ?_
  · intro converged k hchecked
    rcases hchecked with ⟨-, -, hk⟩
    split <;> exact ⟨hr.fits, hr.finite, hr.norm_le, hk⟩
  · exact fun _ k hk => ⟨hr.fits, hr.finite, hr.norm_le, hk⟩

theorem Bounded.endedWith {f : Failure Exact K} {r t : Run σ Exact K (State Exact K)}
    (hF : c.problem.Computes F) (hr : Bounded F bound r) (h : Run.EndedWith c f r t) :
    Bounded F bound t := by
  rcases h.fellBack.core_cases with hcore | ⟨fu, w, hresidual, hcore⟩
  · exact hr.of_core hcore
  · obtain ⟨g, hg, hfinite, hle⟩ := hr.remembers.fallback
    have hfu : F r.checker.fallback = .ok fu := hF.eq_of_eval hresidual
    simp only [Run.core, Prod.mk.injEq] at hcore
    rcases hcore with ⟨htu, htfu, hk⟩
    rw [hg] at hfu
    cases hfu
    exact ⟨by rw [htu, htfu, hg], by rw [htfu, hfinite], by rw [htfu]; exact hle,
      by rw [hk]; exact hr.remembers⟩

theorem Bounded.step {a : TrustRegion Exact} {r t : Run σ Exact K (State Exact K)}
    (hF : c.problem.Computes F) (hr : Bounded F bound r)
    (hsettings : r.ext.radius.settings.refusal? = none)
    (h : (Run.step a.strategy c).eval r = (.ok (), t)) : Bounded F bound t := by
  have hstrategy : (TrustRegion.step c).Ends r (fun _ t => Bounded F bound t)
      (fun _ t => Bounded F bound t) := by
    rw [ends_step]
    refine (attempt_ends r).mono ?_ (fun _ _ hno => hr.of_core hno.core_eq)
    intro _ t hattempt
    rcases hattempt with ⟨⟨x, s, accepted, hverdict⟩, hk⟩
    exact (hr.verdict hF hsettings hverdict hk).check
  rcases Run.step_cases h with ⟨s, hs, rfl⟩ | ⟨f, s, s', hs, hend, rfl⟩
  · exact (hstrategy.ok hs).of_core (by simp)
  · exact ((hstrategy.error hs).endedWith hF hend).of_core (by simp)

theorem Bounded.of_start {a : TrustRegion Exact} {world : σ} {r : Run σ Exact K (State Exact K)}
    (hF : c.problem.Computes F) (hstart : Run.start a.strategy c world = .ok r)
    (hfinite : r.fu.isFinite) : Bounded F r.fu.norm r := by
  have hfits : F r.u = .ok r.fu := hF.of_answered (Run.start_answered hstart)
  have hfirst : r.checker.best = r.u ∧ r.checker.lastFinite = r.u := by
    rw [Run.start_checker hstart]
    exact ⟨rfl, rfl⟩
  refine ⟨hfits, hfinite, norm_le_self hfinite, ?_, ?_⟩
  · rw [hfirst.1]
    exact ⟨r.fu, hfits, hfinite, norm_le_self hfinite⟩
  · rw [hfirst.2]
    exact ⟨r.fu, hfits, hfinite, norm_le_self hfinite⟩

/-- Wherever a run gets, even after a failure, its residual is within that of the start. -/
theorem Bounded.leads {a : TrustRegion Exact} {world : σ} {r t : Run σ Exact K (State Exact K)}
    (ha : a.radius.refusal? = none) (hF : c.problem.Computes F)
    (hstart : Run.start a.strategy c world = .ok r) (hfinite : r.fu.isFinite)
    (h : Run.Leads a.strategy c r t) : Bounded F r.fu.norm t := by
  have hboth : Regular a c t ∧ Bounded F r.fu.norm t := by
    refine h.invariant (I := fun t => Regular a c t ∧ Bounded F r.fu.norm t)
      ⟨.of_start hstart hfinite, .of_start hF hstart hfinite⟩
      (fun s hs => ⟨?_, hs.2.of_core rfl⟩) ?_
    · exact ⟨hs.1.settings, hs.1.running, hs.1.finite, hs.1.model⟩
    · intro s t hboth hactive hstep
      rcases hboth with ⟨hs, hb⟩
      exact ⟨(hs.step ha hactive hstep).1, hb.step hF (by rw [hs.settings, ha]) hstep⟩
  exact hboth.2

/-- **Descent.**  In a run of the trust region strategy with accepted settings from a finite first
residual, a step that returns has accepted its trial, whose residual is then finite and of smaller
norm, or has left the iterate and its residual alone, and so has a step that fails. The norms do not
increase until the run fails, and for a residual that is a function the solution has no larger norm
than the first residual. A model that is kept for the next step is that of the present iterate. -/
theorem run_descends (a : TrustRegion Exact) (c : Setup σ Exact K) (world : σ)
    (ha : a.radius.refusal? = none) {r₀ : Run σ Exact K (State Exact K)}
    (hstart : Run.start a.strategy c world = .ok r₀) (hfinite : r₀.fu.isFinite) :
    (∀ r, Run.Leads a.strategy c r₀ r → r.isActive →
      (TrustRegion.step c).Ends r
        (fun _ t => ∃ x s accepted, Verdict c r x s accepted t ∧
          (accepted = true → x.fu.isFinite ∧ x.fu.norm < r.fu.norm))
        (fun _ t => (t.u = r.u ∧ t.fu = r.fu) ∨ ∃ x s, Verdict c r x s true t ∧
          x.fu.isFinite ∧ x.fu.norm < r.fu.norm)) ∧
      (∀ r t, Run.Leads a.strategy c r₀ r → Run.Leads a.strategy c r t → t.error = none →
        t.fu.norm ≤ r.fu.norm) ∧
      (∀ F, c.problem.Computes F → ∀ o, (Algorithm.trustRegion a).solve c world = .ok o →
        o.solution.residualNorm ≤ r₀.fu.norm) ∧
      (c.backend.Frames → ∀ r, Run.Leads a.strategy c r₀ r → r.error = none →
        r.ext.renew = false → HasModel c r) := by
  have hregular : Regular a c r₀ := .of_start hstart hfinite
  refine ⟨fun r hr hactive => ?_, fun r t hr ht => ?_, fun F hF o ho => ?_, fun hB r hr => ?_⟩
  · have hreg := hregular.leads ha hr
    have hsettings : r.ext.radius.settings.refusal? = none := by rw [hreg.settings, ha]
    have hfu := hreg.finite (hreg.running (Run.stopped_of_isActive hactive))
    apply (step_ends r).mono
    · intro _ t hreturned
      rcases hreturned with ⟨x, s, accepted, h⟩
      refine ⟨x, s, accepted, h, ?_⟩
      intro haccepted
      subst haccepted
      exact h.descends hsettings hfu
    · intro e t hfailed
      rcases hfailed with hno | ⟨x, s, accepted, h⟩
      · have hcore := hno.core_eq
        simp only [Run.core, Prod.mk.injEq] at hcore
        exact .inl ⟨hcore.1, hcore.2.1⟩
      · cases accepted with
        | true => exact .inr ⟨x, s, h, h.descends hsettings hfu⟩
        | false => exact .inl ⟨h.u, h.fu⟩
  · exact (hregular.leads ha hr).norm_le ha ht
  · obtain ⟨e, ⟨r, hstart', hleads⟩, hsolution⟩ := Algorithm.solve_ok ho
    obtain ⟨-, hresidual, -⟩ := Run.solution_ok hsolution
    have hbounded : Bounded F r₀.fu.norm e := by
      have heq : r = r₀ := Except.ok.inj (hstart'.symm.trans hstart)
      rw [heq] at hleads
      exact Bounded.leads ha hF hstart hfinite hleads
    unfold Solution.residualNorm
    rw [hresidual]
    exact hbounded.norm_le
  · exact (hregular.leads ha hr).model hB

/-- A problem with one unknown that is its own residual, from one. -/
noncomputable def identityProblem : Problem Unit Exact Exact where
  residual := .returning fun t w => (.ok t, w)
  guess := ⟨[1], .ofList [real 1]⟩

noncomputable def identitySetup : Setup Unit Exact Exact where
  problem := identityProblem
  options :=
    { abstol := 1e-8, reltol := 1e-8, termination := .standard, norm := Vec.norm }
  backend := .standard

theorem standard_accepted : (standard : TrustRegion Exact).radius.refusal? = none := by
  have hstep : (standard : TrustRegion Exact).radius.stepThreshold = 1e-4 := rfl
  unfold RadiusSettings.refusal?
  rw [hstep]
  norm_num [standard, RadiusSettings.standard]

theorem identity_descends :
    (standard : TrustRegion Exact).radius.refusal? = none ∧
      ∃ r₀, Run.start (standard : TrustRegion Exact).strategy identitySetup () = .ok r₀ ∧
        r₀.fu.isFinite ∧
        ∀ r t, Run.Leads (standard : TrustRegion Exact).strategy identitySetup r₀ r →
          Run.Leads (standard : TrustRegion Exact).strategy identitySetup r t → t.error = none →
            t.fu.norm ≤ r.fu.norm :=
  ⟨standard_accepted, _, rfl, rfl,
    (run_descends standard identitySetup () standard_accepted rfl rfl).2.1⟩

end TrustRegion

end RootFinding
