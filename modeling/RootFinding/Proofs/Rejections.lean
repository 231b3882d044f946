import RootFinding.Proofs.Descent

/-!
# Rejected steps of trust region runs

A trial step that the controller of the radius does not accept shrinks the radius, so a run cannot
repeat it for ever: after as many rejections in a row as the settings allow the next one ends the
run as stalled.

* `TrustRegion.Rejections a c n r t`: the run gets from `r` to `t` by `n` steps that each rejected
  their trial.
* `TrustRegion.Rejections.shrinks`: every one of them is counted by the controller.

The doubling scheme shrinks the radius below a ratio of a quarter only, so its step threshold has to
be below a quarter; `TrustRadius.doubling_repeats` is what happens otherwise.
-/

namespace RootFinding

open Action Exact

namespace TrustRegion

variable {σ K : Type} [Entry Exact K] {a : TrustRegion Exact} {c : Setup σ Exact K}

/-- The step of the loop from `r` to `t` rejected its trial, and the run has not failed. -/
structure Rejects (a : TrustRegion Exact) (c : Setup σ Exact K)
    (r t : Run σ Exact K (State Exact K)) : Prop where
  active : r.isActive
  step : (Run.step a.strategy c).eval r = (.ok (), t)
  error : t.error = none
  renew : t.ext.renew = false

/-- Steps in a row that rejected their trials. -/
inductive Rejections (a : TrustRegion Exact) (c : Setup σ Exact K) :
    Nat → Run σ Exact K (State Exact K) → Run σ Exact K (State Exact K) → Prop
  | refl {r : Run σ Exact K (State Exact K)} : Rejections a c 0 r r
  | more {n : Nat} {r s t : Run σ Exact K (State Exact K)} :
    Rejections a c n r s → Rejects a c s t → Rejections a c (n + 1) r t

theorem Rejections.leads {n : Nat} {r t : Run σ Exact K (State Exact K)}
    (h : Rejections a c n r t) : Run.Leads a.strategy c r t := by
  induction h with
  | refl => exact .refl
  | more _ hreject ih => exact ih.step hreject.active hreject.step

/-- The verdict of a step that rejected its trial. -/
theorem Rejects.exists_verdict {r t : Run σ Exact K (State Exact K)} (h : Rejects a c r t) :
    ∃ x s, Verdict c r x s false t := by
  obtain ⟨s, hs, rfl⟩ := Run.step_going h.step h.error
  obtain ⟨x, s', accepted, hverdict⟩ := (step_ends r).ok hs
  obtain ⟨trace, printed, ht⟩ := Run.recorded_eq c r.u s
  have hverdict' : Verdict c r x s' accepted (Run.recorded c r.u s) := by
    rw [ht]
    exact hverdict.of_eq rfl rfl rfl rfl rfl
  cases accepted with
  | true =>
    have hrenew := h.renew
    rw [hverdict'.ext] at hrenew
    cases hrenew
  | false => exact ⟨x, s', hverdict'⟩

/-- An answer that does not accept is counted, and is one of those that the settings allow. -/
theorem shrinks_of_refused {x : Trial Exact K} {s : Run σ Exact K (State Exact K)}
    (ha : a.radius.refusal? = none)
    (hdoubling : a.radius.scheme = .doubling → a.radius.stepThreshold < 0.25)
    (hsettings : s.ext.radius.settings = a.radius) (h : (verdict x s).1 = .ok false) :
    (verdict x s).2.shrinks = s.ext.radius.shrinks + 1 ∧
      ((verdict x s).2.shrinks : Int) ≤ a.radius.maxShrinks := by
  obtain ⟨step, below, factor, hs⟩ := RadiusSettings.accepted ha
  have heval := update_of_verdict h
  have hreject : ¬real step < TrustRadius.effective x.ratio := by
    have h := ((TrustRadius.update_ends _ _ _).ok heval).2
    rw [hsettings, hs.step_eq] at h
    exact of_decide_eq_false h.symm
  rw [← hsettings] at hs hdoubling
  obtain ⟨-, hshrunk, hle⟩ :=
    (TrustRadius.update_rejects x.du.norm hs hdoubling hreject).ok heval
  exact ⟨by rw [hshrunk]; rfl, by rw [← hsettings]; exact hle⟩

theorem Rejects.shrinks {r t : Run σ Exact K (State Exact K)} (ha : a.radius.refusal? = none)
    (hdoubling : a.radius.scheme = .doubling → a.radius.stepThreshold < 0.25)
    (hr : Regular a c r) (h : Rejects a c r t) :
    t.ext.radius.shrinks = r.ext.radius.shrinks + 1 ∧
      (t.ext.radius.shrinks : Int) ≤ a.radius.maxShrinks := by
  obtain ⟨x, s, hverdict⟩ := h.exists_verdict
  have hradius : t.ext.radius = (TrustRegion.verdict x s).2 := by rw [hverdict.ext]
  rw [hradius, ← hverdict.proposal.radius]
  exact shrinks_of_refused ha hdoubling (by rw [hverdict.proposal.radius, hr.settings])
    hverdict.judged

theorem Rejections.shrinks {n : Nat} {r t : Run σ Exact K (State Exact K)}
    (ha : a.radius.refusal? = none)
    (hdoubling : a.radius.scheme = .doubling → a.radius.stepThreshold < 0.25)
    (hmax : 0 ≤ a.radius.maxShrinks) (hr : Regular a c r) (h : Rejections a c n r t) :
    n ≤ t.ext.radius.shrinks ∧ (n : Int) ≤ a.radius.maxShrinks := by
  induction h with
  | refl => exact ⟨Nat.zero_le _, hmax⟩
  | @more n r s t hbefore hreject ih =>
    obtain ⟨hcount, -⟩ := ih hr
    obtain ⟨hmore, hle⟩ := hreject.shrinks ha hdoubling (hr.leads ha hbefore.leads)
    omega

/-- After the last reduction that the settings allow, an answer that does not accept is the failure
as stalled. -/
theorem stalls_of_refused {x : Trial Exact K} {s : Run σ Exact K (State Exact K)}
    (ha : a.radius.refusal? = none)
    (hdoubling : a.radius.scheme = .doubling → a.radius.stepThreshold < 0.25)
    (hsettings : s.ext.radius.settings = a.radius)
    (hcount : a.radius.maxShrinks ≤ s.ext.radius.shrinks) (h : (verdict x s).1 ≠ .ok true) :
    ∃ f : Failure Exact K, (verdict x s).1 = .error (.failure f) ∧ f.kind = .stall := by
  rcases hanswer : (verdict x s).1 with e | accepted
  · obtain ⟨-, f, rfl, hkind⟩ :=
      (TrustRadius.update_ends _ _ _).error (update_of_verdict hanswer)
    exact ⟨f, rfl, hkind⟩
  · cases accepted with
    | true => exact (h hanswer).elim
    | false =>
      obtain ⟨hmore, hle⟩ := shrinks_of_refused ha hdoubling hsettings hanswer
      omega

/-- A step fails with the error that the controller answers to its trial. -/
theorem step_fails {r s : Run σ Exact K (State Exact K)} {x : Trial Exact K} {e : Thrown Exact K}
    (hproposed : (propose c).eval r = (.ok x, s)) (hjudged : (verdict x s).1 = .error e) :
    (TrustRegion.step c).Ends r (fun _ _ => False) (fun e' _ => e' = e) := by
  have hunique : ∀ {x' s'}, (propose c).eval r = (.ok x', s') → x' = x ∧ s' = s := by
    intro x' s' hproposed'
    have heq := hproposed'.symm.trans hproposed
    simpa only [Prod.mk.injEq, Except.ok.injEq] using heq
  have hnone : ∀ {x' s' accepted t}, ¬Verdict c r x' s' accepted t := by
    intro x' s' accepted t h
    obtain ⟨rfl, rfl⟩ := hunique h.proposed
    rw [h.judged] at hjudged
    cases hjudged
  apply (step_ends r).mono
  · intro _ t hreturned
    obtain ⟨x', s', accepted, h⟩ := hreturned
    exact hnone h
  · intro e' t hfailed
    rcases hfailed with hno | ⟨x', s', accepted, h⟩
    · cases hno with
      | proposal failed =>
        rw [hproposed] at failed
        cases failed
      | controller x' s' proposed judged =>
        obtain ⟨rfl, rfl⟩ := hunique proposed
        rw [judged] at hjudged
        exact Except.error.inj hjudged
    · exact (hnone h).elim

/-- A trial that the controller does not accept after the last rejection that it allows ends the run
as stalled. -/
theorem stalled_of_rejected {r t : Run σ Exact K (State Exact K)} {x : Trial Exact K}
    {s : Run σ Exact K (State Exact K)} (ha : a.radius.refusal? = none)
    (hdoubling : a.radius.scheme = .doubling → a.radius.stepThreshold < 0.25)
    (hr : Regular a c r) (hcount : a.radius.maxShrinks ≤ r.ext.radius.shrinks)
    (hproposed : (propose c).eval r = (.ok x, s)) (hverdict : (verdict x s).1 ≠ .ok true)
    (h : (Run.step a.strategy c).eval r = (.ok (), t)) : t.code = .stalled ∧ t.stopped := by
  have hproposal : Proposed c r x s := (propose_proposed r).ok hproposed
  have hsettings : s.ext.radius.settings = a.radius := by rw [hproposal.radius, hr.settings]
  have hcount' : a.radius.maxShrinks ≤ s.ext.radius.shrinks := by rwa [hproposal.radius]
  obtain ⟨f, hf, hkind⟩ := stalls_of_refused ha hdoubling hsettings hcount' hverdict
  have hfails := step_fails hproposed hf
  rcases Run.step_cases h with ⟨s', hs', rfl⟩ | ⟨f', s', s'', hs', hend, rfl⟩
  · exact (hfails.ok hs').elim
  · have hff : f' = f := Thrown.failure.inj (hfails.error hs')
    rw [Run.recorded_code, Run.recorded_stopped, hend.code_eq, hend.stopped_eq, hff]
    unfold Failure.returnCode
    rw [hkind]
    exact ⟨rfl, rfl⟩

/-- **Rejections shrink the radius.**  Take settings that are not refused, whose step threshold is
below a quarter if the scheme is the doubling one. An update of a finite radius that does not accept
its trial makes the radius smaller and counts one more reduction in a row, or fails as stalled; and
in a run at most as many steps in a row reject their trials as the settings allow reductions, the
next trial that is not accepted ending the run as stalled. -/
theorem rejections_bounded (s : RadiusSettings Exact) (hs : s.refusal? = none)
    (hdoubling : s.scheme = .doubling → s.stepThreshold < 0.25) :
    (∀ (t : TrustRadius Exact) (ratio length : Exact), t.settings = s →
      Scalar.isFinite t.radius → 0.0 < t.radius → 0.0 < length → length ≤ t.radius →
        (TrustRadius.update ratio length : Action (Thrown Exact K) _ _).Ends t
          (fun accepted t' => accepted = false →
            t'.radius < t.radius ∧ t'.shrinks = t.shrinks + 1)
          (fun e _ => ∃ f, e = .failure f ∧ f.kind = .stall)) ∧
      ∀ (a : TrustRegion Exact) (c : Setup σ Exact K) (world : σ) (n : Nat)
        (r₀ r t : Run σ Exact K (State Exact K)), a.radius = s → 0 ≤ s.maxShrinks →
        Run.start a.strategy c world = .ok r₀ → r₀.fu.isFinite → Run.Leads a.strategy c r₀ r →
        Rejections a c n r t →
          (n : Int) ≤ s.maxShrinks ∧
            ((n : Int) = s.maxShrinks → ∀ x s', (propose c).eval t = (.ok x, s') →
              (verdict x s').1 ≠ .ok true → ∀ t', (Run.step a.strategy c).eval t = (.ok (), t') →
                t'.code = .stalled ∧ t'.stopped) := by
  refine ⟨fun t ratio length hsettings hfinite hpos hlength hle => ?_,
    fun a c world n r₀ r t ha hmax hstart hfinite hleads hrejections => ?_⟩
  · subst hsettings
    obtain ⟨step, below, factor, haccepted⟩ := RadiusSettings.accepted hs
    obtain ⟨radius, hradius⟩ := isReal_iff.1 hfinite
    have hpos' : 0 < radius := by
      rw [hradius, ofScientific_eq, real_lt] at hpos
      norm_num at hpos
      exact hpos
    refine ends_iff.2
      ⟨?_, fun e t' heval => ((TrustRadius.update_ends t ratio length).error heval).2⟩
    intro accepted t' heval haccepted
    subst haccepted
    obtain ⟨-, hanswer⟩ := (TrustRadius.update_ends t ratio length).ok heval
    have hreject : ¬real step < TrustRadius.effective ratio := by
      rw [← haccepted.step_eq]
      exact of_decide_eq_false hanswer.symm
    obtain ⟨-, rfl, -⟩ := (TrustRadius.update_rejects length haccepted hdoubling hreject).ok heval
    exact ⟨TrustRadius.reduced_lt haccepted hreject hpos' hradius hlength hle, rfl⟩
  · subst ha
    have hregular : Regular a c r := (Regular.of_start hstart hfinite).leads hs hleads
    obtain ⟨hcount, hbound⟩ := hrejections.shrinks hs hdoubling hmax hregular
    refine ⟨hbound, fun hn x s' hproposed hverdict t' hstep => ?_⟩
    exact stalled_of_rejected hs hdoubling (hregular.leads hs hrejections.leads)
      (by omega) hproposed hverdict hstep

theorem standard_rejections_bounded :
    (RadiusSettings.standard : RadiusSettings Exact).refusal? = none ∧
      (TrustRadius.update undefined (real 1) : Action (Thrown Exact Exact) _ _).Ends
        { settings := .standard, maximum := real 1, radius := real 1 }
        (fun accepted t => accepted = false → t.radius < real 1 ∧ t.shrinks = 1)
        (fun e _ => ∃ f, e = .failure f ∧ f.kind = .stall) :=
  ⟨standard_accepted,
    (rejections_bounded (σ := Unit) .standard standard_accepted (fun h => nomatch h)).1
      { settings := .standard, maximum := real 1, radius := real 1 } undefined (real 1) rfl rfl
      (by norm_num) (by norm_num) (by norm_num)⟩

end TrustRegion

namespace TrustRadius

/-- Settings of the doubling scheme with a step threshold above a quarter. -/
noncomputable def lateDoubling : RadiusSettings Exact :=
  { RadiusSettings.standard with
    scheme := .doubling
    step := some (real 0.5)
    shrinkBelow := real 0.6
    expandAbove := real 0.7 }

/-- The doubling scheme keeps the radius of a trial that it does not accept if the ratio of the
trial is a quarter or more, so the same trial comes again. -/
theorem doubling_repeats :
    lateDoubling.refusal? = none ∧
      (TrustRadius.update (real 0.3) (real 1) : Action (Thrown Exact Exact) _ _).eval
        { settings := lateDoubling, maximum := real 5, radius := real 1 } =
        (.ok false, { settings := lateDoubling, maximum := real 5, radius := real 1 }) := by
  have hstep : lateDoubling.stepThreshold = real 0.5 := rfl
  constructor
  · unfold RadiusSettings.refusal?
    rw [hstep]
    norm_num [lateDoubling, RadiusSettings.standard]
  · have hfinite : Scalar.isFinite (real 0.3) = true := rfl
    have hscheme : lateDoubling.scheme = .doubling := rfl
    have hquarter : ¬real 0.3 < (0.25 : Exact) := by norm_num
    have hgrow : ¬(0.75 : Exact) ≤ real 0.3 := by norm_num
    have hreject : ¬lateDoubling.stepThreshold < real 0.3 := by
      rw [hstep]
      norm_num
    simp only [TrustRadius.update, eval_bind, eval_get, hfinite, if_true, hscheme, updateDoubling,
      if_neg hquarter, if_neg hgrow]
    rw [decide_eq_false hreject]
    rfl

end TrustRadius

end RootFinding
