import RootFinding.Proofs.SafeModes
import RootFinding.Proofs.SpectralSearch

/-!
# The spectral coefficient

The coefficient after a step is the quotient of the step, if the size of that is within the bounds,
and otherwise a size that fits the change of the residual. The fitting sizes have limits of their
own, so the bounds hold of the coefficient only where they leave room for these.

* `SpectralResidual.quotient`, `SpectralResidual.fitting`: the two numbers.
* `SpectralResidual.Adapted`: how the coefficient after a step comes about. `step_adapted`: every
  step that comes to its check has adapted it.
* `SpectralResidual.spectral_range`: the range of the coefficient along a run.
* `SpectralResidual.narrow_exceeds`: bounds that a step does not keep.
-/

namespace RootFinding

open Action Exact

/-- Where the norm of the residual is compared with a bound, a check of finite values answers. -/
theorem Run.check_absNorm {σ R K X : Type} [Scalar R] [Entry R K] {r : Run σ R K X}
    (hmode : r.checker.settings.mode = .absNorm) (hu : r.u.isFinite) (hfu : r.fu.isFinite) :
    (Run.check : Stepping σ R K X Bool).Ends r
      (fun _ t => ∃ checker code stopped, t = { r with checker, code, stopped })
      (fun _ _ => False) := by
  have hfinite : (r.fu.isFinite && r.u.isFinite) = true := Bool.and_eq_true_iff.2 ⟨hfu, hu⟩
  have hbound : r.checker.criterion r.fu r.u = .ok r.checker.abstol := by
    rw [Checker.criterion, hmode]
    rfl
  have hanswers : (Run.check : Stepping σ R K X Bool).Ends r (fun _ _ => True)
      (fun _ _ => False) := by
    simp only [Run.check, ends_bind, ends_get, ends_within]
    rw [Ends, Checker.check_eval_norm r.previous hfinite (.inl hmode) hbound]
    dsimp only
    split <;> trivial
  exact (r.check_frame.and hanswers).mono (fun _ _ h => h.1) (fun _ _ h => h.2)

namespace SpectralResidual

section Coefficients

variable {σ R K : Type} [Scalar R] [Entry R K]

/-- The quotient of a step and the change of the residual along it, infinite where the step does not
see the change. -/
def quotient (s y : Vec K) : K :=
  if Entry.isZero (s.dot y) then Entry.ofReal Scalar.infinity else s.dot s / s.dot y

/-- A size that fits a change of the residual of the given norm. -/
def fitting (change : R) : R :=
  Scalar.clamp (if 0.0 < change then 1.0 / change else Scalar.infinity) 1.0 1e5

/-- How a coefficient comes about from a step and the change of the residual. -/
inductive Adapted (a : SpectralResidual σ R K) (s y : Vec K) (spectral : R) : Prop
  | within (least : a.least ≤ Entry.abs (quotient s y))
    (largest : Entry.abs (quotient s y) ≤ a.largest)
    (eq : spectral = Entry.re (quotient s y))
  | replaced
    (outside : ¬(a.least ≤ Entry.abs (quotient s y) ∧ Entry.abs (quotient s y) ≤ a.largest))
    (eq : spectral = fitting y.norm)

theorem nextSpectral_adapted (a : SpectralResidual σ R K) (u fu : Vec K) (t : Trial R K) :
    Adapted a (t.u - u) (t.fu - fu) (a.nextSpectral u fu t) := by
  have hnext : a.nextSpectral u fu t =
      a.safeguard (quotient (t.u - u) (t.fu - fu)) (t.fu - fu).norm := rfl
  rw [hnext, safeguard]
  split
  next h => exact .within h.1 h.2 rfl
  next h => exact .replaced h rfl

/-- A step that returns has adapted the coefficient to itself. -/
theorem step_adapted (a : SpectralResidual σ R K) (c : Setup σ R K) (r : Run σ R K (State R)) :
    (a.step c).Ends r (fun _ t => Adapted a (t.u - r.u) (t.fu - r.fu) t.ext.spectral)
      (fun _ _ => True) := by
  rw [step_parts]
  refine (a.approach_lands r).bind (fun _ t ht => ?_) (fun _ _ _ => trivial)
  obtain ⟨x, s, -, -, rfl⟩ := ht
  refine (Run.check_frame _).bind (fun _ t ht => ?_) (fun _ _ _ => trivial)
  obtain ⟨checker, code, stopped, rfl⟩ := ht
  exact a.nextSpectral_adapted r.u r.fu x.1

end Coefficients

/-! ## Ranges -/

section Ranges

variable {σ K : Type} [Entry Exact K] {a : SpectralResidual σ Exact K} {c : Setup σ Exact K}
  {r r₀ : Run σ Exact K (State Exact)} {s y : Vec K} {spectral : Exact}

/-- A fitting size has limits of its own, also where the change is not finite. -/
theorem fitting_range (change : Exact) :
    ∃ x, 1 ≤ x ∧ x ≤ 100000 ∧ fitting change = real x := by
  have hdefined : (if 0.0 < change then 1.0 / change else Scalar.infinity) ≠ undefined := by
    split
    next h =>
      norm_num at h
      cases change with
      | real x =>
        have hone : (1.0 : Exact) = real 1 := by norm_num
        rw [hone, real_div (real_lt.1 h).ne']
        exact Exact.noConfusion
      | posInf => exact Exact.noConfusion
      | negInf | undefined => exact h.elim
    · exact Exact.noConfusion
  have hle : (1.0 : ℝ) ≤ 1e5 := by norm_num
  obtain ⟨x, hx, hx', hclamp⟩ := clamp_between hdefined hle
  norm_num at hx hx'
  exact ⟨x, hx, hx', hclamp⟩

/-- A coefficient is the real part of a quotient within the bounds, or it is within the limits of
the fitting sizes. -/
def Ranged (a : SpectralResidual σ Exact K) (spectral : Exact) : Prop :=
  (∃ z : K, a.least ≤ Entry.abs z ∧ Entry.abs z ≤ a.largest ∧ spectral = Entry.re z) ∨
    ∃ x, 1 ≤ x ∧ x ≤ 100000 ∧ spectral = real x

theorem Adapted.ranged (h : Adapted a s y spectral) : Ranged a spectral := by
  cases h with
  | within least largest eq => exact .inl ⟨_, least, largest, eq⟩
  | replaced _ eq =>
    rw [eq]
    exact .inr (fitting_range y.norm)

/-- Numbers without imaginary parts are within the bounds themselves, and bounds that leave room for
the fitting sizes hold of every coefficient. -/
theorem Ranged.size (h : Ranged a spectral)
    (hreal : ∀ z : K, Entry.abs z = Scalar.abs (Entry.re z)) :
    ((a.least ≤ Scalar.abs spectral ∧ Scalar.abs spectral ≤ a.largest) ∨
      ∃ x, 1 ≤ x ∧ x ≤ 100000 ∧ spectral = real x) ∧
    (a.least ≤ real 1 → real 100000 ≤ a.largest →
      a.least ≤ Scalar.abs spectral ∧ Scalar.abs spectral ≤ a.largest) := by
  rcases h with ⟨z, hleast, hlargest, rfl⟩ | ⟨x, hx, hx', rfl⟩
  · rw [hreal] at hleast hlargest
    exact ⟨.inl ⟨hleast, hlargest⟩, fun _ _ => ⟨hleast, hlargest⟩⟩
  · refine ⟨.inr ⟨x, hx, hx', rfl⟩, fun hleast hlargest => ?_⟩
    have habs : Scalar.abs (real x) = real x := congrArg real (abs_of_nonneg (by linarith))
    rw [habs]
    exact ⟨Exact.le_trans hleast (real_le.2 hx), Exact.le_trans (real_le.2 hx') hlargest⟩

/-- **The range of the spectral coefficient.**  Every step of a run that returns has set the
coefficient to the quotient of the step, if that is within the bounds, and otherwise to the size
that fits the change of the residual. So wherever a run has got by a step at least and without a
failure, the coefficient is the real part of a number within the bounds, or it is within the limits
of the fitting sizes; and among numbers without imaginary parts it keeps all bounds that leave room
for these. -/
theorem spectral_range (a : SpectralResidual σ Exact K) (c : Setup σ Exact K) {world : σ}
    (hstart : Run.start a.strategy c world = .ok r₀) :
    (∀ r t, Run.Leads a.strategy c r₀ r → (a.step c).eval r = (.ok (), t) →
      Adapted a (t.u - r.u) (t.fu - r.fu) t.ext.spectral) ∧
    (∀ change : Exact, ∃ x, 1 ≤ x ∧ x ≤ 100000 ∧ fitting change = real x) ∧
    ∀ r, Run.Leads a.strategy c r₀ r → r.error = none → 0 < r.steps →
      Ranged a r.ext.spectral ∧
      ((∀ z : K, Entry.abs z = Scalar.abs (Entry.re z)) →
        ((a.least ≤ Scalar.abs r.ext.spectral ∧ Scalar.abs r.ext.spectral ≤ a.largest) ∨
          ∃ x, 1 ≤ x ∧ x ≤ 100000 ∧ r.ext.spectral = real x) ∧
        (a.least ≤ real 1 → real 100000 ≤ a.largest →
          a.least ≤ Scalar.abs r.ext.spectral ∧ Scalar.abs r.ext.spectral ≤ a.largest)) := by
  refine ⟨fun r t _ h => (a.step_adapted c r).ok h, fitting_range, fun r hr herror hsteps => ?_⟩
  have hranged : Ranged a r.ext.spectral := by
    induction hr with
    | refl =>
      rw [Run.start_steps hstart] at hsteps
      cases hsteps
    | headline _ ih => exact ih herror hsteps
    | step _ _ hstep _ =>
      obtain ⟨s, hs, rfl⟩ := Run.step_going hstep herror
      rw [Run.recorded_ext]
      exact ((a.step_adapted c _).ok hs).ranged
  exact ⟨hranged, hranged.size⟩

end Ranges

section Identity

open TrustRegion

/-- The standard bounds hold along every run. -/
theorem identity_spectral :
    ∃ r₀, Run.start plainSearch.strategy identitySetup () = .ok r₀ ∧
      ∀ r, Run.Leads plainSearch.strategy identitySetup r₀ r → r.error = none → 0 < r.steps →
        plainSearch.least ≤ Scalar.abs r.ext.spectral ∧
          Scalar.abs r.ext.spectral ≤ plainSearch.largest := by
  obtain ⟨r₀, hstart, -⟩ := plainSearch_starts
  obtain ⟨-, -, hrange⟩ := spectral_range plainSearch identitySetup hstart
  refine ⟨r₀, hstart, fun r hr herror hsteps => ?_⟩
  refine ((hrange r hr herror hsteps).2 fun _ => rfl).2 ?_ ?_
  · norm_num [plainSearch, standard]
  · norm_num [plainSearch, standard]

/-- Where the residual changes as the iterate does, the coefficient comes out as one, infinite or
replaced, and none of these is below one. -/
theorem Adapted.exceeds {σ : Type} {a : SpectralResidual σ Exact Exact} {change : Vec Exact}
    {coefficient : Exact} {n : Nat} {x : Fin n → ℝ} {largest : ℝ}
    (h : Adapted a change change coefficient) (hx : change.Reads x)
    (hlargest : a.largest = real largest) (hlt : largest < 1) : ¬Scalar.abs coefficient ≤ a.largest := by
  have hdot := hx.dot hx
  generalize ∑ i, x i * x i = z at hdot
  cases h with
  | within least hle eq =>
    rw [hlargest, quotient, hdot] at hle
    split at hle
    · exact hle.elim
    next hzero =>
      have hz : z ≠ 0 := fun h => hzero (isZero_iff.2 (congrArg real h))
      have hone : (real z / real z : Exact) = real 1 := by rw [real_div hz, div_self hz]
      have hle : Entry.abs (real z / real z : Exact) ≤ real largest := hle
      rw [hone] at hle
      have hle : |(1 : ℝ)| ≤ largest := hle
      rw [abs_one] at hle
      exact absurd hlt hle.not_gt
  | replaced outside eq =>
    obtain ⟨y, hy, -, hfitting⟩ := fitting_range change.norm
    rw [eq, hfitting, hlargest]
    change ¬|y| ≤ largest
    rw [abs_of_nonneg (by linarith)]
    linarith

/-- The standard settings, with a coefficient of at most a half. -/
noncomputable def narrowSearch : SpectralResidual Unit Exact Exact :=
  { plainSearch with largest := 0.5, first := 0.5 }

theorem narrowSearch_real :
    narrowSearch.largest = real (1 / 2) ∧ narrowSearch.first = real (1 / 2) := by
  norm_num [narrowSearch]

theorem narrowSearch_accepted : narrowSearch.refusal? = none := by
  norm_num [refusal?, narrowSearch, plainSearch, standard]

/-- What a run of the identity has started with. -/
structure AtOne (r : Run Unit Exact Exact (State Exact)) : Prop where
  u : r.u.Reads ![(1 : ℝ)]
  fu : r.fu.Reads ![(1 : ℝ)]
  first : r.ext.first = real 1
  spectral : r.ext.spectral = real (1 / 2)
  history : ∀ m ∈ r.ext.history, m = real 1
  steps : r.steps = 0

theorem narrowSearch_starts :
    ∃ r, Run.start narrowSearch.strategy identitySetup () = .ok r ∧ AtOne r ∧
      r.checker.settings.mode = .absNorm := by
  have hmerit : narrowSearch.meritOf identitySetup (.ofList [real 1]) = real 1 :=
    plainSearch_merit_one rfl
  exact ⟨_, rfl, ⟨rfl, rfl, hmerit, narrowSearch_real.2,
    fun m hm => (List.eq_of_mem_replicate hm).trans hmerit, rfl⟩, rfl⟩

/-- The first search accepts one of its trials. -/
theorem narrowSearch_approach {r : Run Unit Exact Exact (State Exact)}
    (hready : Ready identitySetup r) (hr : AtOne r) :
    (narrowSearch.approach identitySetup).Ends r
      (fun _ t => (∃ x : Fin 1 → ℝ, t.u.Reads x) ∧ t.fu = t.u) (fun _ _ => False) := by
  obtain ⟨lo, hi, ha⟩ := accepted narrowSearch_accepted
  have hold : narrowSearch.meritOf identitySetup r.fu = real 1 := plainSearch_merit_one hr.fu
  refine (ha.approach_settles hready hold).mono (fun _ t ht => ?_) (fun e t ht => ?_)
  · obtain ⟨η, i, part, hsettled⟩ := ht
    have hanswered := hsettled.chosen.stands.answered
    exact ⟨⟨_, hsettled.chosen.reads hr.u hr.fu hr.spectral⟩, identity_answers hanswered⟩
  · obtain ⟨-, hinterrupted | ⟨-, -, η, ⟨w, hη⟩, hrefused⟩⟩ := ht
    · have htolerance := toleranceAt_standard (a := narrowSearch) rfl (context r) r
      refine not_interrupted (fun u w hu => ?_) htolerance hinterrupted
      exact ⟨u, identity_evaluate hu w⟩
    · -- the first trial is halfway to the solution
      obtain ⟨part, t, ⟨hlow, hhigh⟩, ht, hplace, hrefused⟩ := hrefused 0 (by decide)
      obtain rfl : part = 1 := le_antisymm (by simpa using hhigh) (by simpa using hlow)
      have hu : t.u.Reads ![(1 / 2 : ℝ)] := by
        have hhalf : (fun j => ![(1 : ℝ)] j - ((1 * (1 / 2) : ℝ) : ℝ) * ![(1 : ℝ)] j) =
            ![(1 / 2 : ℝ)] := by
          funext j
          fin_cases j
          norm_num
        rw [hplace, ← hhalf]
        exact reads_ahead hr.u hr.fu hr.spectral 1
      have hmerit : t.merit = real ((1 / 2) ^ (2 : ℕ)) := by
        rw [ht.merit, identity_answers ht.answered]
        exact plainSearch_merit hu
      have htolerance : η = real 1 := by
        rw [toleranceAt_standard rfl, Prod.mk.injEq, Except.ok.injEq] at hη
        have hone : (Scalar.ofNat 1 : Exact) = real 1 := congrArg real Nat.cast_one
        rw [← hη.1, StepContext.standardTolerance, context, hr.first, hr.steps]
        exact (congrArg (real 1 / ·) hone).trans ((real_div one_ne_zero).trans (by norm_num))
      have hlargest : r.ext.largest = real 1 := hr.history _ hready.largest.1
      have hdecrease : narrowSearch.decrease = real 1e-4 := rfl
      refine hrefused ?_
      change t.merit ≤ r.ext.largest + η -
        narrowSearch.decrease * real (1 * 1) * narrowSearch.meritOf identitySetup r.fu
      rw [hmerit, hlargest, htolerance, hdecrease, hold]
      norm_num

/-- The first step completes, and the residual of its iterate is the iterate. -/
theorem narrowSearch_completes {r : Run Unit Exact Exact (State Exact)}
    (hready : Ready identitySetup r) (hr : AtOne r) (hmode : r.checker.settings.mode = .absNorm) :
    (narrowSearch.step identitySetup).Ends r
      (fun _ t => (∃ x : Fin 1 → ℝ, t.u.Reads x) ∧ t.fu = t.u) (fun _ _ => False) := by
  rw [step_parts]
  refine ((narrowSearch_approach hready hr).and (narrowSearch.approach_lands r)).bind
    (fun _ s hs => ?_) (fun _ _ h => h.1)
  obtain ⟨⟨⟨y, hu⟩, hfu⟩, x, s', -, hs', rfl⟩ := hs
  have hchecker : s'.checker = r.checker := congrArg (·.checker) (Run.eq_of_unworked hs')
  have hplain : (narrowSearch.landed r x s').checker.settings.mode = .absNorm := by
    rw [← hmode, ← hchecker]
    rfl
  refine (Run.check_absNorm hplain hu.isFinite (hfu ▸ hu.isFinite)).bind (fun _ t ht => ?_)
    (fun _ _ h => h)
  obtain ⟨checker, code, stopped, rfl⟩ := ht
  exact ⟨⟨y, hu⟩, hfu⟩

theorem narrow_exceeds :
    narrowSearch.refusal? = none ∧
      ∃ r₀ t, Run.start narrowSearch.strategy identitySetup () = .ok r₀ ∧
        (narrowSearch.step identitySetup).eval r₀ = (.ok (), t) ∧
        ¬Scalar.abs t.ext.spectral ≤ narrowSearch.largest := by
  obtain ⟨r₀, hstart, hr₀, hmode⟩ := narrowSearch_starts
  have hsquare : ∀ u fu, identityProblem.Answered u fu → fu.size = u.size :=
    fun u fu h => by rw [identity_answers h]
  have hready : Ready identitySetup r₀ := .of_start (by decide) hsquare hstart
  obtain ⟨⟨⟩, t, ht, ⟨x, hu⟩, hfu⟩ := (narrowSearch_completes hready hr₀ hmode).exists_ok
  refine ⟨narrowSearch_accepted, r₀, t, hstart, ht, ?_⟩
  have hadapted := (narrowSearch.step_adapted identitySetup r₀).ok ht
  have hfr : r₀.fu = r₀.u := by rw [hr₀.u, hr₀.fu]
  rw [hfu, hfr] at hadapted
  exact hadapted.exceeds (hu.sub hr₀.u) narrowSearch_real.1 (by norm_num)

end Identity

end SpectralResidual

end RootFinding
