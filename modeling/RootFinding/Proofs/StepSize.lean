import RootFinding.Controller.ErrorEstimate
import RootFinding.Controller.StepSize
import RootFinding.Proofs.ExactMatrix
import RootFinding.Proofs.Fits
import RootFinding.Proofs.Outcome

/-!
# Step sizes of exact arithmetic

The controller and the error estimate of pseudo-time steps, as functions of numbers.

* `StepController.gainFor`, `StepController.nextSize`: the gain for an error and the size after it.
  `StepController.update_exact`: the controller computes them, and every size stays positive.
* `StepController.gainAt`, `StepController.divisor`: the gain for an error that may be infinite, and
  by what the size is divided then. `StepController.update_eval`: the controller does so for every
  steady band and every size.
* `StepController.errorOf`: the error from three iterates and two sizes. `estimateError_exact`: the
  estimate computes it where no tolerance is zero.
-/

namespace RootFinding

open Action Exact ExactEntry

/-! ## The controller -/

namespace StepController

/-- A controller with real numbers as one of exact numbers. -/
def exact (k : StepController ℝ) : StepController Exact where
  qmin := real k.qmin
  qmax := real k.qmax
  steadyMin := real k.steadyMin
  steadyMax := real k.steadyMax
  gamma := real k.gamma
  qold := real k.qold
  abstol := real k.abstol
  reltol := real k.reltol

/-- What the settings of a controller fulfil that is not refused, the steady band apart. -/
structure Accepted (k : StepController ℝ) : Prop where
  qmin : 0 < k.qmin
  qmax : 1 ≤ k.qmax
  gamma : 0 < k.gamma

/-- The gains of `c` are bounded and scaled by the numbers of `k`. -/
structure HasGains (c : StepController Exact) (k : StepController ℝ) : Prop where
  qmin : c.qmin = real k.qmin
  qmax : c.qmax = real k.qmax
  gamma : c.gamma = real k.gamma

variable {c : StepController Exact} {k : StepController ℝ}

theorem exact_hasGains (k : StepController ℝ) : k.exact.HasGains k := ⟨rfl, rfl, rfl⟩

/-- The settings that are not refused. -/
theorem of_refusal (h : c.refusal? = none) :
    (real 0 < c.qmin ∧ c.qmin ≤ real 1 ∧ real 1 ≤ c.qmax) ∧ ¬c.gamma ≤ real 0 ∧
      ¬(c.abstol < real 0 ∨ c.reltol < real 0 ∨ c.abstol + c.reltol ≤ real 0) := by
  have hzero : (0.0 : Exact) = real 0 := by norm_num
  have hone : (1.0 : Exact) = real 1 := by norm_num
  rw [refusal?, hzero, hone] at h
  split at h
  · cases h
  next hgains =>
    split at h
    · cases h
    · split at h
      · cases h
      next hgamma =>
        split at h
        · cases h
        next htolerances => exact ⟨by simpa using hgains, hgamma, htolerances⟩

theorem HasGains.accepted (hc : c.HasGains k) (h : c.refusal? = none) : k.Accepted := by
  obtain ⟨⟨hqmin, -, hqmax⟩, hgamma, -⟩ := of_refusal h
  rw [hc.qmin, real_lt] at hqmin
  rw [hc.qmax, real_le] at hqmax
  rw [hc.gamma, real_le, not_le] at hgamma
  exact ⟨hqmin, hqmax, hgamma⟩

theorem accepted_of_refusal (h : k.exact.refusal? = none) : k.Accepted :=
  (exact_hasGains k).accepted h

/-- The gain for an error. -/
noncomputable def gainFor (k : StepController ℝ) (error : ℝ) : ℝ :=
  if error = 0 then 1 / k.qmax
  else min (max (error / k.gamma) (1 / k.qmax)) (1 / k.qmin)

/-- The size after a step with the given error: the old one over the gain, or the old one itself if
the step is accepted with a gain in the steady band. -/
noncomputable def nextSize (k : StepController ℝ) (alpha error : ℝ) : ℝ :=
  if error ≤ 1 ∧ k.steadyMin ≤ k.gainFor error ∧ k.gainFor error ≤ k.steadyMax then alpha
  else alpha / k.gainFor error

theorem Accepted.gainFor_pos (hk : k.Accepted) (error : ℝ) : 0 < k.gainFor error := by
  have hqmax : 0 < k.qmax := zero_lt_one.trans_le hk.qmax
  unfold gainFor
  split
  · exact one_div_pos.2 hqmax
  · exact lt_min ((one_div_pos.2 hqmax).trans_le (le_max_right _ _)) (one_div_pos.2 hk.qmin)

theorem Accepted.nextSize_pos (hk : k.Accepted) {alpha : ℝ} (halpha : 0 < alpha) (error : ℝ) :
    0 < k.nextSize alpha error := by
  unfold nextSize
  split
  · exact halpha
  · exact div_pos halpha (hk.gainFor_pos error)

theorem least_real (x y : ℝ) : Scalar.least (real x) (real y) = real (min x y) := by
  rw [Scalar.least]
  split
  next h => rw [min_eq_right (real_lt.1 h).le]
  next h => rw [min_eq_left (not_lt.1 h)]

theorem clamp_real (x lo hi : ℝ) :
    Scalar.clamp (real x) (real lo) (real hi) = real (min (max x lo) hi) := by
  have hgreatest : Scalar.greatest (real x) (real lo) = real (max x lo) := by
    unfold Scalar.greatest
    split
    next h => rw [max_eq_right (real_lt.1 h).le]
    next h => rw [max_eq_left (not_lt.1 h)]
  rw [Scalar.clamp, hgreatest, least_real]

theorem div_nonzero (a : Exact) {y : ℝ} (hy : y ≠ 0) :
    Checked.div a (real y) = .ok (a / real y) := by
  have hzero : (0.0 : Exact) = real 0 := by norm_num
  have hsame : ¬Scalar.same (real y) 0.0 = true := by
    rw [hzero, same_iff]
    exact fun h => hy (Exact.real.inj h)
  rw [Checked.div, if_neg hsame]

theorem div_real {x y : ℝ} (hy : y ≠ 0) :
    Checked.div (real x) (real y) = .ok (real (x / y)) := by
  rw [div_nonzero _ hy, Exact.real_div hy]

/-- The gain for an error that may be infinite. -/
noncomputable def gainAt (k : StepController ℝ) : Exact → ℝ
  | real error => k.gainFor error
  | posInf => 1 / k.qmin
  | negInf | undefined => min (1 / k.qmax) (1 / k.qmin)

/-- By what the size is divided after a step: the gain, unless the step is accepted with a gain in
the steady band. -/
noncomputable def divisor (c : StepController Exact) (k : StepController ℝ) (error : Exact) : ℝ :=
  if error ≤ real 1 ∧ c.steadyMin ≤ real (k.gainAt error) ∧ real (k.gainAt error) ≤ c.steadyMax
  then 1 else k.gainAt error

/-- The size to go back to after a step: the old one over the gain, unless the error is zero. -/
noncomputable def rollback (c : StepController Exact) (k : StepController ℝ)
    (error alpha : Exact) : Exact :=
  if Scalar.same error (real 0) then c.qold else alpha / real (k.gainAt error)

theorem Accepted.gainAt_pos (hk : k.Accepted) (error : Exact) : 0 < k.gainAt error := by
  have hqmax : 0 < 1 / k.qmax := one_div_pos.2 (zero_lt_one.trans_le hk.qmax)
  have hqmin : 0 < 1 / k.qmin := one_div_pos.2 hk.qmin
  cases error with
  | real error => exact hk.gainFor_pos error
  | posInf => exact hqmin
  | negInf | undefined => exact lt_min hqmax hqmin

theorem Accepted.divisor_pos (hk : k.Accepted) (c : StepController Exact) (error : Exact) :
    0 < c.divisor k error := by
  unfold divisor
  split
  · exact one_pos
  · exact hk.gainAt_pos error

/-- The gain for an error that is neither zero nor undefined. -/
theorem gain_eq (hc : c.HasGains k) (hk : k.Accepted) {error : Exact} (hzero : error ≠ real 0)
    (herror : error ≠ undefined) : c.gain error = real (k.gainAt error) := by
  have hone : (1.0 : Exact) = real 1 := by norm_num
  have hqmax : k.qmax ≠ 0 := (zero_lt_one.trans_le hk.qmax).ne'
  rw [gain, hone, hc.qmin, hc.qmax, hc.gamma, Exact.real_div hqmax, Exact.real_div hk.qmin.ne']
  cases error with
  | real error =>
    have hnumber : error ≠ 0 := fun h => hzero (congrArg real h)
    rw [Exact.real_div hk.gamma.ne', clamp_real, gainAt, gainFor, if_neg hnumber]
  | posInf =>
    have hscaled : posInf / real k.gamma = posInf := if_neg (not_lt.2 hk.gamma.le)
    have hgreatest : Scalar.greatest posInf (real (1 / k.qmax)) = posInf := if_neg not_posInf_lt
    rw [hscaled, Scalar.clamp, hgreatest]
    exact if_pos real_lt_posInf
  | negInf =>
    have hgreatest : Scalar.greatest negInf (real (1 / k.qmax)) = real (1 / k.qmax) :=
      if_pos negInf_lt_real
    rw [negInf_div_real hk.gamma, Scalar.clamp, hgreatest, least_real]
    rfl
  | undefined => exact absurd rfl herror

theorem stepsize_eval (hc : c.HasGains k) (hk : k.Accepted) {error : Exact}
    (herror : error ≠ undefined) (alpha : Exact) :
    (stepsize error alpha).eval c =
      (.ok (real (k.gainAt error)), { c with qold := c.rollback k error alpha }) := by
  have hzero : (0.0 : Exact) = real 0 := by norm_num
  have hone : (1.0 : Exact) = real 1 := by norm_num
  simp only [stepsize, eval_bind, eval_get, hzero, rollback]
  by_cases hsame : Scalar.same error (real 0) = true
  · have hqmax : k.qmax ≠ 0 := (zero_lt_one.trans_le hk.qmax).ne'
    have hgain : 1.0 / c.qmax = real (k.gainAt error) := by
      rw [same_iff.1 hsame, hone, hc.qmax, Exact.real_div hqmax, gainAt, gainFor, if_pos rfl]
    rw [if_pos hsame, if_pos hsame, hgain]
    rfl
  · rw [if_neg hsame, if_neg hsame, gain_eq hc hk (mt same_iff.2 hsame) herror,
      div_nonzero _ (hk.gainAt_pos error).ne']
    rfl

theorem afterAccept_eq (hk : k.Accepted) (alpha : Exact) {error : Exact}
    (haccepted : error ≤ real 1) :
    c.afterAccept alpha (real (k.gainAt error)) = .ok (alpha / real (c.divisor k error)) := by
  have hone : (1.0 : Exact) = real 1 := by norm_num
  rw [afterAccept, divisor]
  by_cases hsteady : c.steadyMin ≤ real (k.gainAt error) ∧ real (k.gainAt error) ≤ c.steadyMax
  · rw [if_pos hsteady, if_pos ⟨haccepted, hsteady⟩, hone, div_nonzero _ one_ne_zero]
  · rw [if_neg hsteady, if_neg fun h => hsteady h.2, div_nonzero _ (hk.gainAt_pos error).ne']

theorem rollback_of_rejected {error : Exact} (hrejected : ¬error ≤ real 1) (alpha : Exact) :
    c.rollback k error alpha = alpha / real (c.divisor k error) := by
  have hnonzero : ¬Scalar.same error (real 0) = true := fun h =>
    hrejected (same_iff.1 h ▸ real_le.2 zero_le_one)
  rw [rollback, if_neg hnonzero, divisor, if_neg fun h => hrejected h.1]

/-- The controller forms the next size for every error that is not undefined. -/
theorem update_eval (hc : c.HasGains k) (hk : k.Accepted) {error : Exact}
    (herror : error ≠ undefined) (alpha : Exact) :
    (update error alpha).eval c =
      (.ok (alpha / real (c.divisor k error), decide (error ≤ real 1)),
        { c with qold := c.rollback k error alpha }) := by
  have hone : (1.0 : Exact) = real 1 := by norm_num
  simp only [update, eval_bind, stepsize_eval hc hk herror, eval_get, accepts, hone,
    decide_eq_true_eq]
  by_cases haccepted : error ≤ real 1
  · have hsize := afterAccept_eq (c := { c with qold := c.rollback k error alpha }) hk alpha
      haccepted
    rw [if_pos haccepted, hsize, decide_eq_true haccepted]
    rfl
  · -- a rejected step has an error, so the size to go back to is that of this step
    rw [if_neg haccepted, decide_eq_false haccepted, afterReject, rollback_of_rejected haccepted]
    rfl

/-- What the controller goes back to after a rejected step: the old size over the gain, unless the
error is zero. -/
noncomputable def recorded (k : StepController ℝ) (alpha error : ℝ) : StepController ℝ :=
  if error = 0 then k else { k with qold := alpha / k.gainFor error }

/-- The controller forms the next size. -/
theorem update_exact (hk : k.Accepted) (alpha error : ℝ) :
    ∃ accepted, (update (real error) (real alpha)).eval k.exact =
      (.ok (real (k.nextSize alpha error), accepted), (k.recorded alpha error).exact) := by
  have hsize : alpha / k.exact.divisor k (real error) = k.nextSize alpha error := by
    have hdivisor : k.exact.divisor k (real error) =
        if error ≤ 1 ∧ k.steadyMin ≤ k.gainFor error ∧ k.gainFor error ≤ k.steadyMax then 1
        else k.gainFor error := if_congr Iff.rfl rfl rfl
    rw [hdivisor, nextSize]
    split
    · exact div_one alpha
    · rfl
  have hstate : { k.exact with qold := k.exact.rollback k (real error) (real alpha) } =
      (k.recorded alpha error).exact := by
    unfold recorded rollback
    by_cases herror : error = 0
    · rw [if_pos herror, if_pos (same_iff.2 (congrArg real herror))]
    · rw [if_neg herror, if_neg fun h => herror (Exact.real.inj (same_iff.1 h)),
        Exact.real_div (hk.gainAt_pos _).ne']
      rfl
  refine ⟨decide (real error ≤ real 1), ?_⟩
  rw [update_eval (exact_hasGains k) hk (by simp) (real alpha), hstate,
    Exact.real_div (hk.divisor_pos _ _).ne', hsize]

end StepController

/-! ## The error estimate -/

section Estimate

variable {𝕜 K : Type} [RCLike 𝕜] [Entry Exact K] [ExactEntry 𝕜 K] {n : Nat}

/-- The error of the step of size `alpha` from `y` to `x`, after one of size `alphaPrevious` from
`z` to `y`. -/
noncomputable def StepController.errorOf (k : StepController ℝ) (x y z : Fin n → 𝕜)
    (alpha alphaPrevious : ℝ) : ℝ :=
  √((∑ i, (7 / 12 * (alpha ^ 2 / (alpha + alphaPrevious)) *
    ‖(x i - y i) / (alpha : 𝕜) - (y i - z i) / (alphaPrevious : 𝕜)‖ /
      (k.abstol + k.reltol * max ‖y i‖ ‖x i‖)) ^ 2) / n)

namespace Vec

variable {v : Vec K} {x : Fin n → 𝕜}

/-- The root mean square of some numbers. -/
theorem Reads.rms (hv : v.Reads x) : v.rms = real √((∑ i, ‖x i‖ ^ 2) / n) := by
  have hsquares : (v.map fun a => Scalar.square (Entry.abs a)).total = real (∑ i, ‖x i‖ ^ 2) := by
    refine Reads.total (hv.map (g := fun a => ‖a‖ ^ 2) fun a => ?_)
    rw [ExactEntry.abs, square_real, ← sq]
    rfl
  have hnonneg : 0 ≤ (∑ i, ‖x i‖ ^ 2) / n :=
    div_nonneg (Finset.sum_nonneg fun _ _ => sq_nonneg _) n.cast_nonneg
  unfold Vec.rms
  rw [hsquares, hv.size]
  split
  next hn =>
    subst hn
    norm_num
  next hn =>
    have hcast : (n : ℝ) ≠ 0 := Nat.cast_ne_zero.2 hn
    change Scalar.sqrt (real _ / real n) = _
    rw [Exact.real_div hcast, sqrt_real hnonneg]

end Vec

variable {u v w : Vec K} {x y z : Fin n → 𝕜} {alpha alphaPrevious : ℝ}

theorem secantDifference_exact (hu : u.Reads x) (hv : v.Reads y) (hw : w.Reads z)
    (halpha : 0 < alpha) (hprevious : 0 < alphaPrevious) :
    ∃ d, secantDifference ⟨u, v, w⟩ (real alpha) (real alphaPrevious) = .ok d ∧
      d.Reads fun i => ‖(x i - y i) / ((alpha * (alpha + alphaPrevious) : ℝ) : 𝕜) -
        (y i - z i) / ((alphaPrevious * (alpha + alphaPrevious) : ℝ) : 𝕜)‖ := by
  have hfirst : alpha * (alpha + alphaPrevious) ≠ 0 := by positivity
  have hsecond : alphaPrevious * (alpha + alphaPrevious) ≠ 0 := by positivity
  have hnear := (hu.sub hv).divideBy hfirst
  have hfar := (hv.sub hw).divideBy hsecond
  have hsizes : u.size = v.size ∧ v.size = w.size := by
    rw [hu.size, hv.size, hw.size]
    exact ⟨rfl, rfl⟩
  refine ⟨_, ?_, (hnear.sub hfar).map fun a => ExactEntry.abs a⟩
  unfold secantDifference
  simp only [Vec.align_of_size hsizes.1, Vec.align_of_size hsizes.2]
  change (Vec.align (· - ·) ((u - v).divideBy (real (alpha * (alpha + alphaPrevious))))
    ((v - w).divideBy (real (alphaPrevious * (alpha + alphaPrevious)))) >>=
      fun d => pure (d.map Entry.abs)) = _
  rw [Vec.align_of_size (hnear.size.trans hfar.size.symm)]
  rfl

theorem errorScale_exact (hu : u.Reads x) (hv : v.Reads y) (abstol reltol : ℝ) :
    ∃ s, errorScale ⟨u, v, w⟩ (real abstol) (real reltol) = .ok s ∧
      s.Reads fun i => abstol + reltol * max ‖y i‖ ‖x i‖ := by
  have hprevious := hv.map fun a => ExactEntry.abs a
  have hpresent := hu.map fun a => ExactEntry.abs a
  have hlarger := hprevious.zipWith hpresent maximum_real
  refine ⟨_, ?_, hlarger.map (f := fun a => real abstol + real reltol * a)
    (g := fun a => abstol + reltol * a) fun a => rfl⟩
  unfold errorScale
  rw [Vec.align_of_size (hprevious.size.trans hpresent.size.symm)]
  rfl

/-- The slopes over both sizes at once are those over one of them, over the sum of the sizes. -/
theorem norm_secants (halpha : 0 < alpha) (hprevious : 0 < alphaPrevious) (a b : 𝕜) :
    ‖a / ((alpha * (alpha + alphaPrevious) : ℝ) : 𝕜) -
        b / ((alphaPrevious * (alpha + alphaPrevious) : ℝ) : 𝕜)‖ =
      ‖a / (alpha : 𝕜) - b / (alphaPrevious : 𝕜)‖ / (alpha + alphaPrevious) := by
  have hsum : 0 < alpha + alphaPrevious := by positivity
  rw [RCLike.ofReal_mul, RCLike.ofReal_mul, ← div_div, ← div_div, ← sub_div, norm_div,
    RCLike.norm_ofReal, abs_of_pos hsum]

/-- The estimate computes the error. -/
theorem estimateError_exact (k : StepController ℝ) (hu : u.Reads x) (hv : v.Reads y)
    (hw : w.Reads z) (halpha : 0 < alpha) (hprevious : 0 < alphaPrevious)
    (hscale : ∀ i, k.abstol + k.reltol * max ‖y i‖ ‖x i‖ ≠ 0) :
    estimateError ⟨u, v, w⟩ (real alpha) (real alphaPrevious) (real k.abstol) (real k.reltol)
      Vec.rms = .ok (real (k.errorOf x y z alpha alphaPrevious)) := by
  have hsum : alpha + alphaPrevious ≠ 0 := by positivity
  have hfactor : (7.0 / 12.0 * real (alpha * alpha) : Exact) = real (7 / 12 * (alpha * alpha)) := by
    rw [ofScientific_eq, ofScientific_eq, Exact.real_div (by norm_num), real_mul]
    norm_num
  obtain ⟨d, hd, hdreads⟩ := secantDifference_exact hu hv hw halpha hprevious
  obtain ⟨s, hs, hsreads⟩ := errorScale_exact (w := w) hu hv k.abstol k.reltol
  have hscaled := hdreads.zipWith_of hsreads
    (f := fun d s => 7.0 / 12.0 * real (alpha * alpha) * d / s)
    (z := fun i => 7 / 12 * (alpha ^ 2 / (alpha + alphaPrevious)) *
      ‖(x i - y i) / (alpha : 𝕜) - (y i - z i) / (alphaPrevious : 𝕜)‖ /
        (k.abstol + k.reltol * max ‖y i‖ ‖x i‖)) fun i => by
    rw [hfactor, norm_secants halpha hprevious]
    change real _ * real _ / real _ = real _
    rw [real_mul, Exact.real_div (hscale i)]
    congr 2
    field_simp
  have hreals := hscaled.map (f := (Entry.ofReal : Exact → K)) (g := ((↑) : ℝ → 𝕜)) fun a =>
    ExactEntry.ofReal a
  have hsquare : Checked.square (real alpha) = .ok (real (alpha * alpha)) := rfl
  unfold estimateError
  simp only [hsquare, hd, hs]
  change (Vec.align (fun d s => 7.0 / 12.0 * real (alpha * alpha) * d / s) d s >>=
    fun scaled => pure (Vec.rms (.ofReals scaled : Vec K))) = _
  rw [Vec.align_of_size (hdreads.size.trans hsreads.size.symm)]
  refine congrArg Except.ok (hreals.rms.trans ?_)
  simp only [RCLike.norm_ofReal, sq_abs, StepController.errorOf]

end Estimate

end RootFinding
