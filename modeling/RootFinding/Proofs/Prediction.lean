import RootFinding.Proofs.Descent
import RootFinding.Proofs.Dogleg

/-!
# What dogleg steps predict

The linear model of the residual at a point of a least squares problem. Where its gradient is not
zero, a dogleg step makes the model at least as small as every step down the gradient within the
region does, and smaller than it is without a step. So a trial of the trust region strategy is
always judged by a ratio.

* `RealMatrix.cost`: the square of the length of the model after a step, and its values on the
  pieces of the dogleg path.
* `DoglegPath.decreases`: the comparison with the steps down the gradient, piece by piece.
* `TrustRegion.propose_foretold`: how a proposal makes its trial and the ratio.
* `TrustRegion.dogleg_decreases`: the decrease of dogleg steps, and of the trials of a run.
-/

open scoped Matrix

open RealVector

namespace RealMatrix

variable {m n : Nat} {M : RealMatrix m n} {f : Fin m → ℝ} {x d : Fin n → ℝ}

/-- `x` is a least squares solution of the equations `M x = -f`. -/
def Solves (M : RealMatrix m n) (f : Fin m → ℝ) (x : Fin n → ℝ) : Prop :=
  Mᵀ *ᵥ (M *ᵥ x) = -(Mᵀ *ᵥ f)

/-- The square of the length of the linear model after a step. -/
def cost (M : RealMatrix m n) (f : Fin m → ℝ) (d : Fin n → ℝ) : ℝ :=
  (f + M *ᵥ d) ⬝ᵥ (f + M *ᵥ d)

theorem transpose_dot (M : RealMatrix m n) (f : Fin m → ℝ) (d : Fin n → ℝ) :
    (Mᵀ *ᵥ f) ⬝ᵥ d = f ⬝ᵥ (M *ᵥ d) := by
  rw [Matrix.mulVec_transpose, Matrix.dotProduct_mulVec]

theorem mulVec_scaled (M : RealMatrix m n) (t : ℝ) (d : Fin n → ℝ) :
    M *ᵥ scaled t d = scaled t (M *ᵥ d) :=
  Matrix.mulVec_smul M t d

theorem cost_zero (M : RealMatrix m n) (f : Fin m → ℝ) : cost M f 0 = f ⬝ᵥ f := by
  rw [cost, Matrix.mulVec_zero, add_zero]

/-- The cost along a line is a quadratic function. -/
theorem cost_along (M : RealMatrix m n) (f : Fin m → ℝ) (d e : Fin n → ℝ) (t : ℝ) :
    cost M f (along d e t) = (M *ᵥ e) ⬝ᵥ (M *ᵥ e) * (t * t) +
      2 * ((f + M *ᵥ d) ⬝ᵥ (M *ᵥ e)) * t + cost M f d := by
  have hline : f + M *ᵥ along d e t = along (f + M *ᵥ d) (M *ᵥ e) t := by
    rw [along, along, Matrix.mulVec_add, mulVec_scaled, add_assoc]
  rw [cost, hline, along_dot_self, cost]

/-- The cost down the gradient. -/
theorem cost_descent (M : RealMatrix m n) (f : Fin m → ℝ) (t : ℝ) :
    cost M f (scaled (-t) (Mᵀ *ᵥ f)) = (M *ᵥ (Mᵀ *ᵥ f)) ⬝ᵥ (M *ᵥ (Mᵀ *ᵥ f)) * (t * t) -
      2 * ((Mᵀ *ᵥ f) ⬝ᵥ (Mᵀ *ᵥ f)) * t + f ⬝ᵥ f := by
  have hstart : scaled (-t) (Mᵀ *ᵥ f) = along 0 (Mᵀ *ᵥ f) (-t) := (zero_add _).symm
  rw [hstart, cost_along, cost_zero, Matrix.mulVec_zero, add_zero,
    ← transpose_dot M f (Mᵀ *ᵥ f)]
  ring

/-- The remainder at a least squares solution is orthogonal to every change of the model. -/
theorem Solves.orthogonal (hx : Solves M f x) (d : Fin n → ℝ) : (f + M *ᵥ x) ⬝ᵥ (M *ᵥ d) = 0 := by
  rw [← transpose_dot, Matrix.mulVec_add, hx, add_neg_cancel, zero_dotProduct]

/-- The cost near a least squares solution. -/
theorem Solves.cost_along (hx : Solves M f x) (d : Fin n → ℝ) (t : ℝ) :
    cost M f (along x d t) = (M *ᵥ d) ⬝ᵥ (M *ᵥ d) * (t * t) + cost M f x := by
  rw [RealMatrix.cost_along, hx.orthogonal, mul_zero, zero_mul, add_zero]

theorem Solves.cost_eq (hx : Solves M f x) (d : Fin n → ℝ) :
    cost M f d = (M *ᵥ (d - x)) ⬝ᵥ (M *ᵥ (d - x)) + cost M f x := by
  have h := hx.cost_along (d - x) 1
  have hd : along x (d - x) 1 = d := by
    funext i
    simp [along, scaled]
  rw [hd] at h
  rw [h, mul_one, mul_one]

/-- A least squares solution has the least cost. -/
theorem Solves.cost_le (hx : Solves M f x) (d : Fin n → ℝ) : cost M f x ≤ cost M f d := by
  rw [hx.cost_eq d]
  exact le_add_of_nonneg_left (dot_self_nonneg _)

/-- The cost decreases on the way to a least squares solution. -/
theorem Solves.cost_between (hx : Solves M f x) (d : Fin n → ℝ) {t : ℝ} (hpos : 0 < t)
    (hone : t < 1) : cost M f (along d (x - d) t) ≤ cost M f d := by
  have hline : along d (x - d) t = along x (d - x) (1 - t) := by
    funext i
    simp only [along, scaled, Pi.add_apply, Pi.sub_apply]
    ring
  have hshrinks : (1 - t) * (1 - t) ≤ 1 := by nlinarith
  rw [hline, hx.cost_along, hx.cost_eq d]
  have h := mul_le_mul_of_nonneg_left hshrinks (dot_self_nonneg (M *ᵥ (d - x)))
  linarith

theorem transpose_eq_zero_of_image (h : M *ᵥ (Mᵀ *ᵥ f) = 0) : Mᵀ *ᵥ f = 0 := by
  have hdot := transpose_dot M f (Mᵀ *ᵥ f)
  rw [h, dotProduct_zero] at hdot
  exact dotProduct_self_eq_zero.1 hdot

/-- Where the gradient is not zero, a least squares solution decreases the cost. -/
theorem Solves.cost_lt (hx : Solves M f x) (hg : Mᵀ *ᵥ f ≠ 0) : cost M f x < f ⬝ᵥ f := by
  have hchange : M *ᵥ x ≠ 0 := fun hzero => hg <| by
    have hnormal : Mᵀ *ᵥ (M *ᵥ x) = -(Mᵀ *ᵥ f) := hx
    rw [hzero, Matrix.mulVec_zero] at hnormal
    exact neg_eq_zero.1 hnormal.symm
  have hzero := hx.cost_eq 0
  rw [cost_zero, zero_sub, Matrix.mulVec_neg, neg_dotProduct_neg] at hzero
  have hpos : 0 < (M *ᵥ x) ⬝ᵥ (M *ᵥ x) :=
    lt_of_le_of_ne (dot_self_nonneg _) fun h => hchange (dotProduct_self_eq_zero.1 h.symm)
  linarith

/-- Up to its least point, a quadratic function of a descent decreases. -/
theorem descent_le {curvature slope s t : ℝ} (hts : t ≤ s) (hs : curvature * s ≤ slope)
    (hcurvature : 0 ≤ curvature) (c : ℝ) :
    curvature * (s * s) - 2 * slope * s + c ≤ curvature * (t * t) - 2 * slope * t + c := by
  have hsum : 0 ≤ 2 * slope - curvature * (s + t) := by
    have ht : curvature * t ≤ curvature * s := mul_le_mul_of_nonneg_left hts hcurvature
    rw [mul_add]
    linarith
  have hproduct : 0 ≤ (s - t) * (2 * slope - curvature * (s + t)) :=
    mul_nonneg (sub_nonneg.2 hts) hsum
  linarith

/-- Its least point is the least one. -/
theorem descent_least {curvature slope s : ℝ} (hs : curvature * s = slope)
    (hcurvature : 0 ≤ curvature) (t c : ℝ) :
    curvature * (s * s) - 2 * slope * s + c ≤ curvature * (t * t) - 2 * slope * t + c := by
  have hsquare : 0 ≤ curvature * ((t - s) * (t - s)) :=
    mul_nonneg hcurvature (mul_self_nonneg (t - s))
  rw [← hs]
  linarith

theorem descent_lt {curvature slope s : ℝ} (hpos : 0 < s) (hs : curvature * s ≤ slope)
    (hslope : 0 < slope) (c : ℝ) : curvature * (s * s) - 2 * slope * s + c < c := by
  have hproduct : s * (curvature * s) < s * (2 * slope) :=
    mul_lt_mul_of_pos_left (by linarith) hpos
  linarith

end RealMatrix

namespace RootFinding

open Exact

/-! ## The path -/

namespace DoglegPath

variable {m n : Nat} {M : RealMatrix m n} {f : Fin m → ℝ} {x d : Fin n → ℝ} {r : ℝ}

/-- The least point down the gradient, with the step to it. -/
theorem cauchyPoint_eq (g : Fin n → ℝ) (j : Fin m → ℝ) :
    cauchyPoint g j = scaled (-((g ⬝ᵥ g) / (j ⬝ᵥ j))) g := by
  rw [cauchyPoint, length_mul_self]

/-- A dogleg step makes the cost at least as small as every step down the gradient within the region
does, and smaller than it is. -/
theorem decreases (h : DoglegPath x (Mᵀ *ᵥ f) (M *ᵥ (Mᵀ *ᵥ f)) r d) (hr : 0 < r)
    (hx : M.Solves f x) (hg : Mᵀ *ᵥ f ≠ 0) :
    (∀ t, 0 ≤ t → t * length (Mᵀ *ᵥ f) ≤ r → M.cost f d ≤ M.cost f (scaled (-t) (Mᵀ *ᵥ f))) ∧
      M.cost f d < f ⬝ᵥ f := by
  have hslope : 0 < (Mᵀ *ᵥ f) ⬝ᵥ (Mᵀ *ᵥ f) :=
    lt_of_le_of_ne (dot_self_nonneg _) fun h => hg (dotProduct_self_eq_zero.1 h.symm)
  have hcurvature : 0 < (M *ᵥ (Mᵀ *ᵥ f)) ⬝ᵥ (M *ᵥ (Mᵀ *ᵥ f)) :=
    lt_of_le_of_ne (dot_self_nonneg _) fun h =>
      hg (RealMatrix.transpose_eq_zero_of_image (dotProduct_self_eq_zero.1 h.symm))
  have hlength : 0 < length (Mᵀ *ᵥ f) := lt_of_le_of_ne (length_nonneg _) fun h =>
    hg (length_eq_zero.1 h.symm)
  cases h with
  | newton => exact ⟨fun t _ _ => hx.cost_le _, hx.cost_lt hg⟩
  | flat _ level => exact (level.elim hlength.ne' hcurvature.ne').elim
  | descent _ _ _ far =>
    have hcut : (M *ᵥ (Mᵀ *ᵥ f)) ⬝ᵥ (M *ᵥ (Mᵀ *ᵥ f)) * (r / length (Mᵀ *ᵥ f)) ≤
        (Mᵀ *ᵥ f) ⬝ᵥ (Mᵀ *ᵥ f) := by
      rw [cauchyPoint_eq, length_scaled, abs_neg, abs_of_pos (div_pos hslope hcurvature)] at far
      rw [← le_div_iff₀' hcurvature, div_le_iff₀ hlength]
      exact far
    rw [RealMatrix.cost_descent]
    refine ⟨fun t _ ht => ?_, RealMatrix.descent_lt (div_pos hr hlength) hcut hslope _⟩
    rw [RealMatrix.cost_descent]
    exact RealMatrix.descent_le ((le_div_iff₀ hlength).2 ht) hcut hcurvature.le _
  | between _ _ _ _ crossing =>
    have hpath := hx.cost_between (cauchyPoint (Mᵀ *ᵥ f) (M *ᵥ (Mᵀ *ᵥ f))) crossing.pos
      crossing.lt_one
    have hleast := mul_div_cancel₀ ((Mᵀ *ᵥ f) ⬝ᵥ (Mᵀ *ᵥ f)) hcurvature.ne'
    have hdown : M.cost f (cauchyPoint (Mᵀ *ᵥ f) (M *ᵥ (Mᵀ *ᵥ f))) < f ⬝ᵥ f := by
      rw [cauchyPoint_eq, RealMatrix.cost_descent]
      exact RealMatrix.descent_lt (div_pos hslope hcurvature) hleast.le hslope _
    refine ⟨fun t _ _ => hpath.trans ?_, hpath.trans_lt hdown⟩
    rw [cauchyPoint_eq, RealMatrix.cost_descent, RealMatrix.cost_descent]
    exact RealMatrix.descent_least hleast hcurvature.le _ _

end DoglegPath

/-! ## Trials -/

namespace TrustRegion

open Action

section Proposals

variable {σ R K : Type} [Scalar R] [Entry R K] {c : Setup σ R K}

/-- Half the square of the norm of a residual. -/
def loss (f : Vec K) : R := 0.5 * Scalar.square f.norm

theorem reductionRatio_eq (before after predicted : Vec K) :
    (reductionRatio before after predicted : R) =
      if 0.0 < (loss before - loss predicted : R) then
        (loss before - loss after) / (loss before - loss predicted)
      else -Scalar.infinity := rfl

/-- The trial `x` was made from the kept model `m` and Jacobian `J`, and judged by the change of the
model along the step. -/
structure Foretold (c : Setup σ R K) (x : Trial R K) (t : Run σ R K (State R K)) (J : Matrix R K)
    (m : LinearModel K) (change : Vec K) : Prop where
  jacobian : t.work.jacobian = some J
  model : t.ext.model = some m
  step : m.dogleg t.ext.radius.radius = .ok x.du
  applied : ∃ w w', (J.apply c.problem.evaluate x.du).eval w = (.ok change, w')
  ratio : x.ratio = reductionRatio t.fu x.fu (t.fu + change)

omit [Scalar R] [Entry R K] in
theorem kept_ok {r : Run σ R K (State R K)} {m : LinearModel K} {J : Matrix R K}
    (h : kept r = .ok (m, J)) : r.ext.model = some m ∧ r.work.jacobian = some J := by
  unfold kept at h
  split at h
  next hm hJ =>
    cases h
    exact ⟨hm, hJ⟩
  next => cases h

theorem trial_foretold (r : Run σ R K (State R K)) :
    (trial c).Ends r (fun x t => ∃ J m change, Foretold c x t J m change) (fun _ _ => True) := by
  have hF : ∀ v, Keeps Workspace.jacobian (c.problem.evaluate v) := fun v w =>
    congrArg Prod.fst (c.problem.evaluate_keeps v w)
  simp only [trial, ends_bind, ends_get, ends_ofFault]
  refine ⟨fun x hkept => ?_, fun _ _ => trivial⟩
  rcases x with ⟨m, J⟩
  obtain ⟨hm, hJ⟩ := kept_ok hkept
  refine ⟨fun du hdu => ?_, fun _ _ => trivial⟩
  rw [Run.ends_evaluate]
  refine ((hF _).ends r.work).mono (fun fu w₁ h₁ => ?_) (fun _ _ _ => trivial)
  rw [Run.ends_onWork]
  have hkeeps := (J.apply_keeps hF du).ends w₁
  refine ends_iff.2 ⟨fun change w₂ h₂ => ?_, fun _ _ _ => trivial⟩
  exact ⟨J, m, change, ((hkeeps.ok h₂).trans h₁).trans hJ, hm, hdu, ⟨w₁, w₂, h₂⟩, rfl⟩

theorem propose_foretold (r : Run σ R K (State R K)) :
    (propose c).Ends r (fun x t => ∃ J m change, Foretold c x t J m change)
      (fun _ _ => True) := by
  simp only [propose, ends_bind, ends_get]
  exact Ends.guard (I := fun _ => True) (fun _ => ends_true) (fun _ => trivial)
    (fun s _ => trial_foretold s)

/-- A run that has not failed keeps the model of its iterate, unless the next step makes one. -/
theorem hasModel_of_leads {a : TrustRegion R} (hB : c.backend.Frames) {world : σ}
    {r₀ r : Run σ R K (State R K)} (hstart : Run.start a.strategy c world = .ok r₀)
    (h : Run.Leads a.strategy c r₀ r) :
    r.error = none → r.ext.renew = false → HasModel c r := by
  refine h.invariant
    (I := fun s : Run σ R K (State R K) => s.error = none → s.ext.renew = false → HasModel c s)
    (fun _ hrenew => ?_) (fun s hs => hs) (fun s t hs _ hstep ht => ?_)
  · have hprepared := start_ok (Run.start_prepared hstart)
    exact absurd (hprepared.renew.symm.trans hrenew) (by decide)
  · obtain ⟨s', hs', rfl⟩ := Run.step_going hstep ht
    obtain ⟨x, s₀, accepted, hverdict⟩ := (step_ends s).ok hs'
    obtain ⟨trace, printed, hrecorded⟩ := Run.recorded_eq c s.u s'
    have hkept : s.error = none := by rw [← hverdict.error, ← ht, Run.recorded_error]
    rw [hrecorded]
    exact hverdict.hasModel hB (hs hkept)

end Proposals

section Reals

variable {σ : Type} {c : Setup σ Exact Exact} {m n : Nat} {M : RealMatrix m n} {f : Fin m → ℝ}
  {x d : Fin n → ℝ} {ρ : ℝ} {J : Matrix Exact Exact} {fu change : Vec Exact}
  {k : LinearModel Exact}

theorem loss_holds (hfu : fu.Holds f) : loss fu = real (0.5 * (f ⬝ᵥ f)) := by
  rw [loss, hfu.norm, square_real, length_mul_self]
  rfl

/-- The model of a point with a Jacobian of real numbers. -/
theorem ModelAt.holds {s : JacobianSettings Exact} {u : Vec Exact} (h : ModelAt c s u fu J k)
    (hJ : J.Holds M) (hfu : fu.Holds f) (hx : k.newton.Holds x) :
    k.Holds x (Mᵀ *ᵥ f) (M *ᵥ (Mᵀ *ᵥ f)) := by
  have hgradient : k.gradient.Holds (Mᵀ *ᵥ f) := by
    obtain ⟨g, hg, hholds⟩ := hJ.applyTranspose hfu.size
    cases h.gradient.symm.trans hg
    exact hholds f hfu
  have himage : k.image.Holds (M *ᵥ (Mᵀ *ᵥ f)) := by
    obtain ⟨w, w', himage⟩ := h.image
    obtain ⟨y, hy, happly⟩ := hJ.apply hgradient
    cases himage.symm.trans (happly c.problem.evaluate w)
    exact hy
  exact ⟨hx, hgradient, himage⟩

/-- A step makes the linear model at least as small as every step down the gradient within the
radius does. -/
def Outdoes (M : RealMatrix m n) (f : Fin m → ℝ) (ρ : ℝ) (d : Fin n → ℝ) : Prop :=
  ∀ t, 0 ≤ t → t * length (Mᵀ *ᵥ f) ≤ ρ →
    length (f + M *ᵥ d) ≤ length (f - scaled t (M *ᵥ (Mᵀ *ᵥ f)))

theorem outdoes_of_cost (h : ∀ t, 0 ≤ t → t * length (Mᵀ *ᵥ f) ≤ ρ →
    M.cost f d ≤ M.cost f (scaled (-t) (Mᵀ *ᵥ f))) : Outdoes M f ρ d := by
  intro t ht hwithin
  have hdown : f - scaled t (M *ᵥ (Mᵀ *ᵥ f)) = f + M *ᵥ scaled (-t) (Mᵀ *ᵥ f) := by
    rw [RealMatrix.mulVec_scaled]
    funext i
    simp only [scaled, Pi.add_apply, Pi.sub_apply]
    ring
  rw [hdown]
  exact Real.sqrt_le_sqrt (h t ht hwithin)

/-- The ratio of a trial whose step makes the linear model smaller. -/
theorem ratio_of_cost_lt (hfu : fu.Holds f) (hchange : change.Holds (M *ᵥ d))
    (hlt : M.cost f d < f ⬝ᵥ f) :
    ∃ e, 0 < e ∧ loss fu - loss (fu + change) = real e ∧
      ∀ after, reductionRatio fu after (fu + change) = (loss fu - loss after) / real e := by
  have hexpected : loss fu - loss (fu + change) = real (0.5 * (f ⬝ᵥ f) - 0.5 * M.cost f d) := by
    rw [loss_holds hfu, loss_holds (hfu.add hchange), real_sub]
    rfl
  have hpos : (0 : ℝ) < 0.5 * (f ⬝ᵥ f) - 0.5 * M.cost f d := by linarith
  refine ⟨_, hpos, hexpected, fun after => ?_⟩
  have hzero : (0.0 : Exact) = real 0 := by norm_num
  rw [reductionRatio_eq, hexpected, hzero, if_pos (real_lt.2 hpos)]

/-- The dogleg step of a model with a gradient that is not zero, and the ratio of its trial. -/
theorem dogleg_outdoes (hρ : 0 < ρ) (hx : M.Solves f x) (hg : Mᵀ *ᵥ f ≠ 0)
    (hk : k.Holds x (Mᵀ *ᵥ f) (M *ᵥ (Mᵀ *ᵥ f))) (hJ : J.Holds M) (hfu : fu.Holds f) :
    ∃ v d change e, k.dogleg (real ρ) = .ok v ∧ v.Holds d ∧ Outdoes M f ρ d ∧
      (∀ F (w : Workspace σ Exact Exact), (J.apply F v).eval w = (.ok change, w)) ∧
      0 < e ∧ loss fu - loss (fu + change) = real e ∧
      ∀ after, reductionRatio fu after (fu + change) = (loss fu - loss after) / real e := by
  obtain ⟨v, d, hv, hd, hpath⟩ := LinearModel.dogleg_path hk hρ
  obtain ⟨hleast, hlt⟩ := hpath.decreases hρ hx hg
  obtain ⟨change, hchange, happly⟩ := hJ.apply hd
  obtain ⟨e, hpos, hexpected, hratio⟩ := ratio_of_cost_lt hfu hchange hlt
  exact ⟨v, d, change, e, hv, hd, outdoes_of_cost hleast, happly, hpos, hexpected, hratio⟩

/-- A trial that is proposed from the model of the present iterate is judged by such a ratio. -/
theorem propose_outdoes {r s : Run σ Exact Exact (State Exact Exact)} {y : Trial Exact Exact}
    (hB : c.backend.Frames) (hr : r.ext.renew = false → HasModel c r)
    (hproposed : (propose c).eval r = (.ok y, s)) (hρ : 0 < ρ)
    (hradius : s.ext.radius.radius = real ρ) (hfu : r.fu.Holds f)
    (hjacobian : s.work.jacobian = some J) (hJ : J.Holds M) (hmodel : s.ext.model = some k)
    (hnewton : k.newton.Holds x) (hx : M.Solves f x) (hg : Mᵀ *ᵥ f ≠ 0) :
    ∃ d e, y.du.Holds d ∧ Outdoes M f ρ d ∧ 0 < e ∧
      y.ratio = (loss r.fu - loss y.fu) / real e := by
  have hproposal : Proposed c r y s := (propose_proposed r).ok hproposed
  have hsame : s.fu = r.fu := congrArg (·.fu) hproposal.rest
  obtain ⟨J₁, k₁, change, hforetold⟩ := (propose_foretold r).ok hproposed
  obtain ⟨J₂, k₂, hJ₂, hk₂, hat⟩ := hproposal.model hB hr
  cases hjacobian.symm.trans hforetold.jacobian
  cases hjacobian.symm.trans hJ₂
  cases hmodel.symm.trans hforetold.model
  cases hmodel.symm.trans hk₂
  rw [hsame] at hat
  obtain ⟨v, d, change', e, hv, hd, houtdoes, happly, hpos, -, hratio⟩ :=
    dogleg_outdoes (σ := σ) hρ hx hg (hat.holds hJ hfu hnewton) hJ hfu
  have hstep := hforetold.step
  rw [hradius, hv] at hstep
  cases hstep
  obtain ⟨w, w', happlied⟩ := hforetold.applied
  cases happlied.symm.trans (happly _ w)
  refine ⟨d, e, hd, houtdoes, hpos, ?_⟩
  rw [hforetold.ratio, hsame]
  exact hratio y.fu

/-- **Dogleg steps decrease the model.**  For a real Jacobian `M` of any shape and rank, a residual
`f` whose gradient is not zero, any least squares solution `x` and any radius, the dogleg step makes
the linear model at least as small as every step down the gradient within the radius does, and the
reduction that it predicts is positive, so the ratio of its trial is that of the reductions. So it
is for every trial that is proposed from the model of the present iterate, which a run keeps until
it fails. -/
theorem dogleg_decreases (c : Setup σ Exact Exact) (hρ : 0 < ρ) (hx : M.Solves f x)
    (hg : Mᵀ *ᵥ f ≠ 0) (hk : k.Holds x (Mᵀ *ᵥ f) (M *ᵥ (Mᵀ *ᵥ f))) (hJ : J.Holds M)
    (hfu : fu.Holds f) (hB : c.backend.Frames) :
    (∃ v d change e, k.dogleg (real ρ) = .ok v ∧ v.Holds d ∧ Outdoes M f ρ d ∧
      (∀ F (w : Workspace σ Exact Exact), (J.apply F v).eval w = (.ok change, w)) ∧
      0 < e ∧ loss fu - loss (fu + change) = real e ∧
      ∀ after, reductionRatio fu after (fu + change) = (loss fu - loss after) / real e) ∧
    (∀ r s y, (r.ext.renew = false → HasModel c r) → (propose c).eval r = (.ok y, s) →
      r.fu = fu → s.work.jacobian = some J → (∃ k', s.ext.model = some k' ∧ k'.newton.Holds x) →
      s.ext.radius.radius = real ρ → ∃ d e, y.du.Holds d ∧ Outdoes M f ρ d ∧ 0 < e ∧
        y.ratio = (loss r.fu - loss y.fu) / real e) ∧
    ∀ (a : TrustRegion Exact) world r₀ r, Run.start a.strategy c world = .ok r₀ →
      Run.Leads a.strategy c r₀ r → r.error = none → r.ext.renew = false → HasModel c r := by
  refine ⟨dogleg_outdoes hρ hx hg hk hJ hfu, ?_, fun a world r₀ r => hasModel_of_leads hB⟩
  intro r s y hr hproposed hsame hjacobian hmodel hradius
  obtain ⟨k', hmodel, hnewton⟩ := hmodel
  exact propose_outdoes hB hr hproposed hρ hradius (hsame ▸ hfu) hjacobian hJ hmodel hnewton hx hg

end Reals

/-! ## Two equations in one unknown -/

/-- The second of two equations in one unknown has no solution. -/
def tallMatrix : RealMatrix 2 1 := !![1; 0]

theorem tallMatrix_gradient : tallMatrixᵀ *ᵥ ![1, 1] = ![1] := by
  ext i
  fin_cases i
  simp [tallMatrix, Matrix.mulVec, dotProduct]

theorem tallMatrix_image : tallMatrix *ᵥ ![1] = ![1, 0] := by
  ext i
  fin_cases i <;> simp [tallMatrix, Matrix.mulVec, dotProduct]

theorem tallMatrix_solves : tallMatrix.Solves ![1, 1] ![-1] := by
  unfold RealMatrix.Solves
  rw [tallMatrix_gradient]
  ext i
  fin_cases i
  simp [tallMatrix, Matrix.mulVec, dotProduct]

noncomputable def tallJacobian : Matrix Exact Exact :=
  .dense (Dense.transpose (.ofRow [real 1, real 0]))

theorem tallJacobian_holds : tallJacobian.Holds tallMatrix where
  cols := rfl
  rows := rfl

/-- The model at the residual of two ones. -/
noncomputable def tallModel : LinearModel Exact where
  newton := .ofList [real (-1)]
  gradient := .ofList [real 1]
  image := .ofList [real 1, real 0]

theorem tallModel_holds : tallModel.Holds ![-1] (tallMatrixᵀ *ᵥ ![1, 1])
    (tallMatrix *ᵥ (tallMatrixᵀ *ᵥ ![1, 1])) := by
  rw [tallMatrix_gradient, tallMatrix_image]
  exact ⟨rfl, rfl, rfl⟩

/-- Half of the Newton step is predicted to reduce the residual, in any state with this model. -/
theorem tallModel_decreases :
    0 < (1 / 2 : ℝ) ∧ tallMatrixᵀ *ᵥ ![1, 1] ≠ 0 ∧ identitySetup.backend.Frames ∧
      (∃ v d change e, tallModel.dogleg (real (1 / 2)) = .ok v ∧ v.Holds d ∧
        Outdoes tallMatrix ![1, 1] (1 / 2) d ∧
        (∀ F (w : Workspace Unit Exact Exact),
          (tallJacobian.apply F v).eval w = (.ok change, w)) ∧
        0 < e ∧
        (loss (.ofList [real 1, real 1]) - loss (.ofList [real 1, real 1] + change) : Exact) =
          real e ∧
        ∀ after, (reductionRatio (.ofList [real 1, real 1]) after
          (.ofList [real 1, real 1] + change) : Exact) =
            (loss (.ofList [real 1, real 1]) - loss after) / real e) ∧
      ∀ (a : TrustRegion Exact) world r₀ r, Run.start a.strategy identitySetup world = .ok r₀ →
        Run.Leads a.strategy identitySetup r₀ r → r.error = none → r.ext.renew = false →
          HasModel identitySetup r := by
  have hgradient : tallMatrixᵀ *ᵥ ![1, 1] ≠ 0 := by
    rw [tallMatrix_gradient]
    exact fun h => one_ne_zero (congrFun h 0)
  have hresidual : (Vec.ofList [real 1, real 1]).Holds ![1, 1] := rfl
  obtain ⟨hstep, -, hkept⟩ := dogleg_decreases identitySetup one_half_pos tallMatrix_solves
    hgradient tallModel_holds tallJacobian_holds hresidual Backend.standard_frames
  exact ⟨one_half_pos, hgradient, Backend.standard_frames, hstep, hkept⟩

end TrustRegion

end RootFinding
