import RootFinding.Proofs.RadiusRange

/-!
# The smooth scheme of the trust radius

The smooth scheme sets the radius to the length of the step times a function of the ratio,
`TrustRadius.smoothCurve`. The function increases and is over one from the threshold on only, so it
tells the steps after which the radius shrinks from those after which it grows. What is left of this
after the radius is cut is stated here for one update.

* `TrustRadius.smooth_shrinks`: below the threshold the radius is less than the step is long.
* `TrustRadius.smooth_grows`: from the threshold on it is longer than the step, or the largest.
* `TrustRadius.smooth_separates`: the function with both.
-/

namespace RootFinding

open Action Exact

namespace TrustRadius

section Updates

variable {K : Type} {t : TrustRadius Exact} {ratio : Exact} {step below factor r l : ℝ}

/-- A ratio below the threshold leaves a radius that is less than the step is long. -/
theorem smooth_shrinks (hs : t.settings.Accepted step below factor)
    (hscheme : t.settings.scheme = .smooth) (hr : 0 < r) (hradius : t.radius = real r) (hl : 0 < l)
    (hlow : effective ratio < real below) :
    (update ratio (real l) : Action (Thrown Exact K) (TrustRadius Exact) Bool).Ends t
      (fun _ t' => ∃ r', t'.radius = real r' ∧ 0 < r' ∧ r' < l ∧ r' ≤ factor * r)
      (fun _ _ => True) := by
  have hbelow : effective ratio < t.settings.shrinkBelow := hs.below_eq ▸ hlow
  obtain ⟨z, hz, hone, heq⟩ := smoothFactor_low hlow
  have hstep : 0 < z * l := mul_pos hz hl
  have hshorter : z * l < l := mul_lt_of_lt_one_left hl hone
  have hreduced : 0 < factor * r := mul_pos hs.factor_pos hr
  have hnew : t.reduced ratio (real l) = Scalar.least (real (z * l)) (real (factor * r)) := by
    rw [reduced, hscheme, hs.below_eq, hs.factor_eq, heq, hradius]
    rfl
  refine Ends.congr ?_ (update_of_low hbelow fun h => by rw [hscheme] at h; cases h)
  rw [ends_bind]
  refine (shrink_ends t _).mono (fun _ t' ht => ?_) (fun _ _ _ => trivial)
  rw [ends_pure, ht.1, shrunk, hnew]
  unfold Scalar.least
  split
  next hlt => exact ⟨_, rfl, hreduced, (real_lt.1 hlt).trans hshorter, le_rfl⟩
  next hnot => exact ⟨_, rfl, hstep, hshorter, not_lt.1 (mt real_lt.2 hnot)⟩

/-- A ratio at the threshold or above it leaves a radius that is longer than the step by more than a
tenth, where the largest radius admits it. -/
theorem smooth_grows {x : ℝ} (hs : t.settings.Accepted step below factor)
    (hscheme : t.settings.scheme = .smooth) (hl : 0 < l) (hmaximum : t.maximum ≠ undefined)
    (hx : below ≤ x) :
    (update (real x) (real l) : Action (Thrown Exact K) (TrustRadius Exact) Bool).Ends t
      (fun _ t' => Scalar.least (real (1.15 * l)) t.maximum ≤ t'.radius ∧ t'.radius ≤ t.maximum)
      (fun _ _ => False) := by
  have heffective : (if Scalar.isFinite (real x) then real x else -Scalar.infinity) = real x := rfl
  have hhigh : ¬real x < real below := mt real_lt.1 (not_lt.2 hx)
  have hlength : real (1.15 * l) ≤ real (smoothCurve below x * l) :=
    mul_le_mul_of_nonneg_right (smoothCurve_high hx).1 hl.le
  have hpos : real 0 < real (smoothCurve below x * l) := by
    refine mul_pos (lt_of_lt_of_le ?_ (smoothCurve_high hx).1) hl
    norm_num
  simp only [update, ends_bind, ends_get, heffective, hscheme, updateSmooth, hs.below_eq,
    if_neg hhigh, ends_grow, ends_pure, smoothFactor_real, real_mul]
  -- the new radius is at least what the curve gives, and both are cut to the largest one
  generalize hnew : Scalar.greatest (real (smoothCurve below x * l)) (1e-3 * t.radius) = new
  have hle : real (1.15 * l) ≤ new :=
    Exact.le_trans hlength (hnew ▸ le_greatest_left hpos)
  have hdefined : new ≠ undefined := by
    rintro rfl
    exact not_le_undefined hle
  obtain ⟨hleft, hright⟩ := least_le (a := real (1.15 * l)) Exact.noConfusion hmaximum
  exact ⟨le_least (Exact.le_trans hleft hle) hright, (least_le hdefined hmaximum).2⟩

/-- **The smooth scheme tells good steps from bad ones.**  For settings that are not refused the
function of the ratio increases everywhere; below the threshold it is in `(0.1, 0.85)`, from the
threshold on in `[1.15, 5)`, and so it is below one exactly below the threshold. With a radius and a
length of the step that are positive, an update by a ratio below the threshold, where one that is not
finite counts as minus infinity, leaves a positive radius that is less than the step is long and
reduced by the factor at least, unless the solve is stalled. An update by a finite ratio from the
threshold on does not fail, and leaves a radius of at least `1.15` times the length of the step or of
the largest value, and never of more. -/
theorem smooth_separates (s : RadiusSettings Exact) (hs : s.refusal? = none) :
    ∃ (below factor : ℝ) (curve : ℝ → ℝ), s.shrinkBelow = real below ∧ s.shrinkFactor = real factor ∧
      (∀ x, smoothFactor s.shrinkBelow (real x) = real (curve x)) ∧
      StrictMono curve ∧
      (∀ x, x < below → 0.1 < curve x ∧ curve x < 0.85) ∧
      (∀ x, below ≤ x → 1.15 ≤ curve x ∧ curve x < 5) ∧
      (∀ x, curve x < 1 ↔ x < below) ∧
      ∀ (t : TrustRadius Exact) (r l : ℝ), t.settings = s → s.scheme = .smooth → 0 < r → 0 < l →
        t.radius = real r →
        (∀ ratio, effective ratio < s.shrinkBelow →
          (update ratio (real l) : Action (Thrown Exact K) (TrustRadius Exact) Bool).Ends t
            (fun _ t' => ∃ r', t'.radius = real r' ∧ 0 < r' ∧ r' < l ∧ r' ≤ factor * r)
            (fun _ _ => True)) ∧
        ∀ x, below ≤ x → t.maximum ≠ undefined →
          (update (real x) (real l) : Action (Thrown Exact K) (TrustRadius Exact) Bool).Ends t
            (fun _ t' => Scalar.least (real (1.15 * l)) t.maximum ≤ t'.radius ∧
              t'.radius ≤ t.maximum)
            (fun _ _ => False) := by
  obtain ⟨step, below, factor, haccepted⟩ := RadiusSettings.accepted hs
  refine ⟨below, factor, smoothCurve below, haccepted.below_eq, haccepted.factor_eq, fun x => ?_,
    smoothCurve_strictMono below, fun x hx => smoothCurve_low hx, fun x hx => smoothCurve_high hx,
    fun x => smoothCurve_lt_one, fun t r l hsettings hscheme hr hl hradius => ?_⟩
  · rw [haccepted.below_eq, smoothFactor_real]
  · subst hsettings
    refine ⟨fun ratio hlow => ?_, fun x hx hmaximum => ?_⟩
    · rw [haccepted.below_eq] at hlow
      exact smooth_shrinks haccepted hscheme hr hradius hl hlow
    · exact smooth_grows haccepted hscheme hl hmaximum hx

end Updates

/-! ## The standard thresholds -/

noncomputable def smoothSettings : RadiusSettings Exact :=
  { RadiusSettings.standard with scheme := .smooth }

noncomputable def smoothRadius : TrustRadius Exact :=
  { settings := smoothSettings, maximum := real 10, radius := real 1 }

/-- From a radius of one, a step of length one without a reduction, and one that is as predicted. -/
theorem smoothRadius_separates :
    smoothSettings.refusal? = none ∧
      (update (real 0) (real 1) : Action (Thrown Exact Exact) (TrustRadius Exact) Bool).Ends
        smoothRadius (fun _ t' => ∃ r', t'.radius = real r' ∧ 0 < r' ∧ r' < 1) (fun _ _ => True) ∧
      (update (real 1) (real 1) : Action (Thrown Exact Exact) (TrustRadius Exact) Bool).Ends
        smoothRadius (fun _ t' => real 1.15 ≤ t'.radius ∧ t'.radius ≤ real 10)
        (fun _ _ => False) := by
  have hrefusal : smoothSettings.refusal? = none := by
    have hstep : smoothSettings.stepThreshold = 1e-4 := rfl
    unfold RadiusSettings.refusal?
    rw [hstep]
    norm_num [smoothSettings, RadiusSettings.standard]
  have hthreshold : smoothSettings.shrinkBelow = real 0.25 := rfl
  obtain ⟨below, factor, curve, hbelow, -, -, -, -, -, -, hupdate⟩ :=
    smooth_separates (K := Exact) smoothSettings hrefusal
  cases hthreshold.symm.trans hbelow
  obtain ⟨hshrinks, hgrows⟩ :=
    hupdate smoothRadius 1 1 rfl rfl zero_lt_one zero_lt_one rfl
  refine ⟨hrefusal, ?_, ?_⟩
  · refine (hshrinks (real 0) ?_).mono (fun _ t' ht => ?_) (fun _ _ h => h)
    · change (0 : ℝ) < 0.25
      norm_num
    · obtain ⟨r', hradius, hpos, hlt, -⟩ := ht
      exact ⟨r', hradius, hpos, hlt⟩
  · refine (hgrows 1 (by norm_num) Exact.noConfusion).mono (fun _ t' ht => ?_) (fun _ _ h => h)
    have hleast : Scalar.least (real (1.15 * 1)) smoothRadius.maximum = real 1.15 := by
      have hlarge : ¬real 10 < real (1.15 * 1) := mt real_lt.1 (by norm_num)
      exact (if_neg hlarge).trans (congrArg real (mul_one _))
    rw [hleast] at ht
    exact ht

end TrustRadius

end RootFinding
