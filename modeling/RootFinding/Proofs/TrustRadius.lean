import Mathlib.Tactic.Linarith
import RootFinding.Controller.TrustRadius
import RootFinding.Proofs.Exact
import RootFinding.Proofs.Outcome

/-!
# The trust radius

What one update of the trust radius does in exact arithmetic, for settings that are not refused.

* `RadiusSettings.Accepted`: the settings as real numbers, with their order.
* `TrustRadius.real_of_lt_effective`: an accepted ratio is a real number above the threshold.
* `TrustRadius.update_rejects`: a ratio that is not accepted makes the radius smaller and counts one
  more reduction in a row, or the update fails as stalled after too many of them.

The doubling scheme halves the radius below a ratio of a quarter whatever its other thresholds are,
so for it the last statement needs the step threshold below a quarter.
-/

namespace RootFinding

open Action Exact

/-! ## Settings -/

/-- The settings of a radius controller as real numbers. -/
structure RadiusSettings.Accepted (s : RadiusSettings Exact) (step below factor : ℝ) : Prop where
  step_eq : s.stepThreshold = real step
  below_eq : s.shrinkBelow = real below
  factor_eq : s.shrinkFactor = real factor
  step_nonneg : 0 ≤ step
  step_lt_below : step < below
  factor_pos : 0 < factor
  factor_lt_one : factor < 1

/-- Settings are accepted exactly if their thresholds and their factors are in order. -/
theorem RadiusSettings.refusal?_eq_none {R : Type} [Scalar R] {s : RadiusSettings R} :
    s.refusal? = none ↔
      (0.0 ≤ s.stepThreshold ∧ s.stepThreshold < s.shrinkBelow ∧ s.shrinkBelow < s.expandAbove) ∧
        0.0 < s.shrinkFactor ∧ s.shrinkFactor < 1.0 ∧ 1.0 < s.expandFactor := by
  unfold refusal?
  simp only [Bool.not_eq_true', decide_eq_false_iff_not]
  split
  next hthresholds => exact iff_of_false (Option.some_ne_none _) fun h => hthresholds h.1
  next hthresholds =>
    split
    next hfactors => exact iff_of_false (Option.some_ne_none _) fun h => hfactors h.2
    next hfactors => exact iff_of_true rfl ⟨not_not.1 hthresholds, not_not.1 hfactors⟩

theorem RadiusSettings.accepted {s : RadiusSettings Exact} (h : s.refusal? = none) :
    ∃ step below factor, s.Accepted step below factor := by
  obtain ⟨⟨hstep, hbelow, habove⟩, hpos, hone, -⟩ := refusal?_eq_none.1 h
  rw [ofScientific_eq] at hstep hpos hone
  obtain ⟨step, step_nonneg, step_eq⟩ := exists_real_of_le_of_lt hstep hbelow
  rw [step_eq] at hbelow
  obtain ⟨below, step_lt_below, below_eq⟩ := exists_real_of_lt_of_lt hbelow habove
  obtain ⟨factor, factor_pos, factor_eq⟩ := exists_real_of_lt_of_lt hpos hone
  rw [factor_eq, real_lt] at hone
  norm_num at step_nonneg factor_pos hone
  exact ⟨step, below, factor, step_eq, below_eq, factor_eq, step_nonneg, step_lt_below,
    factor_pos, hone⟩

namespace TrustRadius

/-! ## Reductions -/

section Reductions

variable {R K : Type} [Scalar R]

/-- The state after a reduction to the given radius. -/
def shrunk (t : TrustRadius R) (radius : R) : TrustRadius R :=
  { t with radius, shrinks := t.shrinks + 1 }

omit [Scalar R] in
/-- A reduction is counted, and it fails as stalled exactly when it was one too many. -/
theorem shrink_ends (t : TrustRadius R) (radius : R) :
    (shrink radius : Action (Thrown R K) (TrustRadius R) Unit).Ends t
      (fun _ t' => t' = t.shrunk radius ∧ (t'.shrinks : Int) ≤ t.settings.maxShrinks)
      (fun e t' => t' = t.shrunk radius ∧ t.settings.maxShrinks < t'.shrinks ∧
        ∃ f, e = .failure f ∧ f.kind = .stall) := by
  simp only [shrink, ends_bind, ends_modify, ends_get]
  split
  next h => exact ⟨rfl, h, _, rfl, rfl⟩
  next h => exact ⟨rfl, Int.not_lt.1 h⟩

omit [Scalar R] in
@[simp] theorem ends_grow {t : TrustRadius R} {radius : R} {Q : Unit → TrustRadius R → Prop}
    {E : Thrown R K → TrustRadius R → Prop} :
    Ends (grow radius) t Q E ↔ Q () { t with radius, shrinks := 0 } := Iff.rfl

/-- The ratio that an update goes by. -/
def effective (ratio : R) : R := if Scalar.isFinite ratio then ratio else -Scalar.infinity

/-- The radius is changed under the same settings, or the action fails as stalled. -/
def Adjusts (t : TrustRadius R) (a : Action (Thrown R K) (TrustRadius R) Unit) : Prop :=
  a.Ends t (fun _ t' => t'.settings = t.settings)
    (fun e t' => t'.settings = t.settings ∧ ∃ f, e = .failure f ∧ f.kind = .stall)

omit [Scalar R] in
theorem shrink_adjusts (t : TrustRadius R) (radius : R) :
    t.Adjusts (shrink radius : Action (Thrown R K) _ _) :=
  (shrink_ends t radius).mono (fun _ t' ht => by rw [ht.1, shrunk])
    (fun e t' ht => ⟨by rw [ht.1, shrunk], ht.2.2⟩)

theorem updateSimple_adjusts (t : TrustRadius R) (ratio length : R) :
    t.Adjusts (updateSimple t ratio length : Action (Thrown R K) _ _) := by
  unfold updateSimple
  split
  · exact t.shrink_adjusts _
  · dsimp only
    split <;> exact rfl

theorem updateDoubling_adjusts (t : TrustRadius R) (ratio length : R) :
    t.Adjusts (updateDoubling t ratio length : Action (Thrown R K) _ _) := by
  unfold updateDoubling
  split
  · exact t.shrink_adjusts _
  · split <;> exact rfl

theorem updateSmooth_adjusts (t : TrustRadius R) (ratio length : R) :
    t.Adjusts (updateSmooth t ratio length : Action (Thrown R K) _ _) := by
  unfold updateSmooth
  dsimp only
  split
  · exact t.shrink_adjusts _
  · exact rfl

/-- An update keeps the settings, answers whether the ratio is above the threshold, and fails only
as stalled. -/
theorem update_ends (t : TrustRadius R) (ratio length : R) :
    (update ratio length : Action (Thrown R K) (TrustRadius R) Bool).Ends t
      (fun accepted t' => t'.settings = t.settings ∧
        accepted = decide (t.settings.stepThreshold < effective ratio))
      (fun e t' => t'.settings = t.settings ∧ ∃ f, e = .failure f ∧ f.kind = .stall) := by
  simp only [update, ends_bind, ends_get]
  cases t.settings.scheme with
  | simple =>
    exact (t.updateSimple_adjusts _ length).bind (fun _ _ ht => ⟨ht, rfl⟩) (fun _ _ ht => ht)
  | doubling =>
    exact (t.updateDoubling_adjusts _ length).bind (fun _ _ ht => ⟨ht, rfl⟩) (fun _ _ ht => ht)
  | smooth =>
    exact (t.updateSmooth_adjusts _ length).bind (fun _ _ ht => ⟨ht, rfl⟩) (fun _ _ ht => ht)

theorem update_keeps (ratio length : R) :
    Keeps settings (update ratio length : Action (Thrown R K) (TrustRadius R) Bool) :=
  keeps_of_ends fun t => (update_ends t ratio length).mono (fun _ _ h => h.1) (fun _ _ h => h.1)

/-- The radius that a scheme reduces to. -/
def reduced (t : TrustRadius R) (ratio length : R) : R :=
  match t.settings.scheme with
  | .simple => t.settings.shrinkFactor * t.radius
  | .doubling => 0.5 * t.radius
  | .smooth =>
    Scalar.least (smoothFactor t.settings.shrinkBelow (effective ratio) * length)
      (t.settings.shrinkFactor * t.radius)

/-- A ratio below the thresholds for a reduction reduces the radius. -/
theorem update_of_low {t : TrustRadius R} {ratio length : R}
    (hlow : effective ratio < t.settings.shrinkBelow)
    (hdoubling : t.settings.scheme = .doubling → effective ratio < 0.25) :
    (update ratio length : Action (Thrown R K) (TrustRadius R) Bool).eval t =
      (do shrink (t.reduced ratio length)
          return (decide (t.settings.stepThreshold < effective ratio)) :
        Action (Thrown R K) (TrustRadius R) Bool).eval t := by
  have hratio : (if Scalar.isFinite ratio then ratio else -Scalar.infinity) = effective ratio := rfl
  simp only [update, reduced, hratio]
  rw [eval_bind, eval_get]
  cases hscheme : t.settings.scheme with
  | simple => simp only [hscheme, updateSimple, if_pos hlow]
  | doubling => simp only [hscheme, updateDoubling, if_pos (hdoubling hscheme)]
  | smooth => simp only [hscheme, updateSmooth, if_pos hlow]

end Reductions

/-- A ratio that is accepted is a real number above the threshold. -/
theorem real_of_lt_effective {ratio : Exact} {x : ℝ} (h : real x < effective ratio) :
    ∃ y, ratio = real y ∧ x < y := by
  cases ratio with
  | real y => exact ⟨y, rfl, h⟩
  | posInf => exact h.elim
  | negInf => exact h.elim
  | undefined => exact h.elim

/-- A ratio that is not accepted counts as a number that is at most the threshold, or as minus
infinity. -/
theorem effective_cases {ratio : Exact} {x : ℝ} (h : ¬real x < effective ratio) :
    (∃ y, effective ratio = real y ∧ y ≤ x) ∨ effective ratio = negInf := by
  cases ratio with
  | real y => exact .inl ⟨y, rfl, not_lt.1 h⟩
  | posInf => exact .inr rfl
  | negInf => exact .inr rfl
  | undefined => exact .inr rfl

theorem effective_lt {ratio : Exact} {x z : ℝ} (h : ¬real x < effective ratio) (hz : x < z) :
    effective ratio < real z := by
  rcases effective_cases h with ⟨y, hy, hyx⟩ | hinf
  · rw [hy]
    exact lt_of_le_of_lt hyx hz
  · rw [hinf]
    trivial

/-- A ratio counts as a real number or as minus infinity. -/
theorem effective_real_or (ratio : Exact) :
    (∃ y, effective ratio = real y) ∨ effective ratio = negInf := by
  cases ratio with
  | real y => exact .inl ⟨y, rfl⟩
  | posInf | negInf | undefined => exact .inr rfl

/-! ## The smooth scheme -/

/-- The radius per length of the step over the real numbers. -/
noncomputable def smoothCurve (below x : ℝ) : ℝ :=
  if below ≤ x then 7.7 * Real.arctan (x - below) / Real.pi + 1.15
  else 0.75 * Real.exp (x - below) + 0.1

theorem smoothFactor_real (below x : ℝ) :
    smoothFactor (real below) (real x) = real (smoothCurve below x) := by
  have harctan : Scalar.arctan (real (x - below)) = real (Real.arctan (x - below)) := rfl
  have hpi : (Scalar.pi : Exact) = real Real.pi := rfl
  unfold smoothFactor smoothCurve
  by_cases h : below ≤ x
  · rw [if_pos (real_le.2 h), if_pos h, real_sub, harctan, hpi]
    simp only [ofScientific_eq, real_sub, real_mul, real_div Real.pi_ne_zero, real_add]
    norm_num [add_assoc]
  · rw [if_neg (mt real_le.1 h), if_neg h, real_sub, exp_real]
    simp only [ofScientific_eq, real_sub, real_mul, real_add]
    norm_num

section Curve

variable {below x y : ℝ}

theorem smoothCurve_low (h : x < below) :
    0.1 < smoothCurve below x ∧ smoothCurve below x < 0.85 := by
  have hpos : 0 < Real.exp (x - below) := Real.exp_pos _
  have hlt : Real.exp (x - below) < 1 := Real.exp_lt_one_iff.2 (sub_neg.2 h)
  rw [smoothCurve, if_neg (not_le.2 h)]
  norm_num
  constructor <;> linarith

theorem smoothCurve_high (h : below ≤ x) :
    1.15 ≤ smoothCurve below x ∧ smoothCurve below x < 5 := by
  have hnonneg : 0 ≤ Real.arctan (x - below) := Real.arctan_nonneg.2 (sub_nonneg.2 h)
  have hquotient : 0 ≤ Real.arctan (x - below) / Real.pi := div_nonneg hnonneg Real.pi_pos.le
  have hhalf : Real.arctan (x - below) / Real.pi < 1 / 2 := by
    rw [div_lt_iff₀ Real.pi_pos]
    linarith [Real.arctan_lt_pi_div_two (x - below)]
  rw [smoothCurve, if_pos h, mul_div_assoc]
  norm_num at hhalf ⊢
  constructor <;> linarith

/-- The curve increases on both sides of the threshold and jumps up there. -/
theorem smoothCurve_strictMono (below : ℝ) : StrictMono (smoothCurve below) := by
  intro x y hxy
  rcases le_or_gt below x with hx | hx
  · have harctan : Real.arctan (x - below) < Real.arctan (y - below) :=
      Real.arctan_strictMono (sub_lt_sub_right hxy below)
    rw [smoothCurve, smoothCurve, if_pos hx, if_pos (hx.trans hxy.le)]
    gcongr
  · rcases le_or_gt below y with hy | hy
    · have hlow := (smoothCurve_low hx).2
      have hhigh := (smoothCurve_high hy).1
      norm_num at hlow hhigh
      linarith
    · rw [smoothCurve, smoothCurve, if_neg (not_le.2 hx), if_neg (not_le.2 hy)]
      gcongr

theorem smoothCurve_lt_one : smoothCurve below x < 1 ↔ x < below := by
  constructor
  · intro h
    by_contra hx
    have hhigh := (smoothCurve_high (not_lt.1 hx)).1
    norm_num at hhigh
    linarith
  · intro h
    have hlow := (smoothCurve_low h).2
    norm_num at hlow
    linarith

/-- Below its threshold the smooth scheme has less of a radius than the step is long. -/
theorem smoothFactor_low {ratio : Exact} (h : effective ratio < real below) :
    ∃ z, 0 < z ∧ z < 1 ∧ smoothFactor (real below) (effective ratio) = real z := by
  rcases effective_real_or ratio with ⟨y, hy⟩ | hinf
  · rw [hy] at h ⊢
    obtain ⟨hlow, hhigh⟩ := smoothCurve_low (real_lt.1 h)
    norm_num at hlow hhigh
    exact ⟨_, by linarith, by linarith, smoothFactor_real below y⟩
  · have hbelow : ¬real below ≤ negInf := id
    have hexp : Scalar.exp (negInf - real below : Exact) = real 0 := rfl
    rw [hinf, smoothFactor, if_neg hbelow, hexp]
    exact ⟨0.1, by norm_num, by norm_num, by norm_num⟩

end Curve

/-! ## Rejected trials -/

/-- In every scheme a reduction from a finite radius makes the radius smaller. -/
theorem reduced_lt {t : TrustRadius Exact} {ratio length : Exact} {step below factor : ℝ}
    (hs : t.settings.Accepted step below factor) (hreject : ¬real step < effective ratio) {r : ℝ}
    (hr : 0 < r) (hradius : t.radius = real r) (hlength : 0.0 < length)
    (hle : length ≤ t.radius) : t.reduced ratio length < t.radius := by
  have hfactor : factor * r < r := by nlinarith [hs.factor_lt_one]
  rw [hradius] at hle
  unfold reduced
  split
  · rw [hs.factor_eq, hradius]
    exact hfactor
  · rw [hradius]
    norm_num
    linarith
  · obtain ⟨y, hy0, hy1, hy⟩ := smoothFactor_low (effective_lt hreject hs.step_lt_below)
    obtain ⟨l, hl0, hlr, rfl⟩ := exists_real_of_lt_of_le hlength hle
    norm_num at hl0
    have hyl : y * l < r := by nlinarith
    rw [hs.below_eq, hs.factor_eq, hradius, hy, real_mul, real_mul]
    unfold Scalar.least
    split
    · exact hfactor
    · exact hyl

/-- **A trial that is not accepted shrinks the radius.**  The update counts one more reduction in a
row and makes a finite radius smaller, or fails as stalled. -/
theorem update_rejects {K : Type} {t : TrustRadius Exact} {ratio : Exact} (length : Exact)
    {step below factor : ℝ} (hs : t.settings.Accepted step below factor)
    (hdoubling : t.settings.scheme = .doubling → t.settings.stepThreshold < 0.25)
    (hreject : ¬real step < effective ratio) :
    (update ratio length : Action (Thrown Exact K) (TrustRadius Exact) Bool).Ends t
      (fun accepted t' => accepted = false ∧ t' = t.shrunk (t.reduced ratio length) ∧
        (t'.shrinks : Int) ≤ t.settings.maxShrinks)
      (fun e t' => t' = t.shrunk (t.reduced ratio length) ∧
        ∃ f, e = .failure f ∧ f.kind = .stall) := by
  have hlow : effective ratio < t.settings.shrinkBelow := by
    rw [hs.below_eq]
    exact effective_lt hreject hs.step_lt_below
  have hquarter : t.settings.scheme = .doubling → effective ratio < 0.25 := fun hscheme => by
    have hstep := hdoubling hscheme
    rw [hs.step_eq, ofScientific_eq, real_lt] at hstep
    exact effective_lt hreject hstep
  refine Ends.congr ?_ (update_of_low hlow hquarter)
  rw [ends_bind]
  refine (shrink_ends t _).mono (fun _ t' ht => ?_) (fun e t' ht => ⟨ht.1, ht.2.2⟩)
  rw [hs.step_eq]
  exact ⟨decide_eq_false hreject, ht.1, ht.2⟩

end TrustRadius

end RootFinding
