import RootFinding.Proofs.Damping
import RootFinding.Proofs.Newton

/-!
# The uphill rule

When a Levenberg-Marquardt step without the second order correction is taken. The rule compares the
residual ahead with the present one, times a power of one minus the cosine of the turn from the last
velocity that was taken: a step that goes on may go uphill, and a step that turns back has to go
downhill far enough.

* `LevenbergMarquardt.cosine_cases`: the cosine is a number between minus one and one, or undefined.
* `LevenbergMarquardt.Passes`: the rule in exact arithmetic. `LevenbergMarquardt.accepts_iff`: the
  rule always answers, and accepts what passes.
* `LevenbergMarquardt.Tries c r J A s v fu w`: the step from `r` tries the velocity `v`, where the
  residual is `fu`. `LevenbergMarquardt.step_tried`: so does every step that returns.
* `LevenbergMarquardt.Descends`: a trial that does not turn back and goes downhill, and so passes.
-/

namespace RootFinding

open Action Exact ExactEntry

/-! ## Quotients by sizes -/

namespace Exact

theorem IsSize.mul {a b : Exact} {p q : Bool} (ha : IsSize a p) (hb : IsSize b q)
    (h : (p && q) = false) : a * b = posInf ∨ a * b = undefined := by
  have hinfinity {x : ℝ} (hx : 0 ≤ x) : infinityOf x = posInf ∨ infinityOf x = undefined := by
    rcases hx.lt_or_eq with hx | rfl
    · exact .inl (if_pos hx)
    · exact .inr (by simp [infinityOf])
  cases p with
  | true =>
    obtain ⟨x, hx, rfl⟩ := ha
    obtain rfl : q = false := h
    rcases hb with rfl | rfl
    · exact hinfinity hx
    · exact .inr rfl
  | false =>
    rcases ha with rfl | rfl
    · cases q with
      | true =>
        obtain ⟨y, hy, rfl⟩ := hb
        exact hinfinity hy
      | false =>
        rcases hb with rfl | rfl
        · exact .inl rfl
        · exact .inr rfl
    · cases b <;> exact .inr rfl

theorem div_posInf (a : Exact) : a / posInf = real 0 ∨ a / posInf = undefined := by
  cases a with
  | real x => exact .inl rfl
  | posInf | negInf | undefined => exact .inr rfl

end Exact

namespace LevenbergMarquardt

/-! ## The cosine -/

section Cosine

variable {𝕜 K : Type} [RCLike 𝕜] [Entry Exact K] [ExactEntry 𝕜 K] [ExactParts 𝕜 K]

/-- The quotient of a product of two finite vectors by their lengths. -/
theorem quotient_cases (xs ys : List 𝕜) (hxs : euclidean xs ≠ 0) :
    Entry.re ((Vec.numbers xs : Vec K).dot (Vec.numbers ys)) /
        ((Vec.numbers xs : Vec K).norm * (Vec.numbers ys : Vec K).norm) = undefined ∨
      ∃ β : ℝ, |β| ≤ 1 ∧ Entry.re ((Vec.numbers xs : Vec K).dot (Vec.numbers ys)) /
        ((Vec.numbers xs : Vec K).norm * (Vec.numbers ys : Vec K).norm) = real β := by
  rw [Vec.dot_numbers, Vec.norm_numbers, Vec.norm_numbers, ExactParts.re, real_mul]
  have hproduct := (RCLike.abs_re_le_norm _).trans (norm_sum_zipWith_le xs ys)
  by_cases hys : euclidean ys = 0
  · -- a product with a vector of zeros is zero
    rw [hys, mul_zero] at hproduct ⊢
    rw [abs_nonpos_iff.1 hproduct]
    exact .inl ((if_pos rfl).trans (by simp [infinityOf]))
  · have hpositive : 0 < euclidean xs * euclidean ys :=
      mul_pos ((euclidean_nonneg xs).lt_of_ne' hxs) ((euclidean_nonneg ys).lt_of_ne' hys)
    refine .inr ⟨_, ?_, Exact.real_div hpositive.ne'⟩
    rw [abs_div, abs_of_pos hpositive]
    exact (div_le_one hpositive).2 hproduct

variable (𝕜) in
include 𝕜 in
/-- The cosine is between minus one and one, unless it is not defined. -/
theorem cosine_cases (v : Vec K) (last : Option (Vec K)) :
    cosine v last = undefined ∨ ∃ β : ℝ, |β| ≤ 1 ∧ cosine v last = real β := by
  have hzero : (0.0 : Exact) = real 0 := by norm_num
  cases last with
  | none => exact .inr ⟨0, by simp, hzero⟩
  | some w =>
    unfold cosine
    by_cases hv : Scalar.same v.norm 0.0 = true
    · exact .inr ⟨0, by simp, (if_pos hv).trans hzero⟩
    · simp only [if_neg hv]
      cases hfinite : v.isFinite && w.isFinite with
      | true =>
        obtain ⟨hvf, hwf⟩ := Bool.and_eq_true_iff.1 hfinite
        obtain ⟨xs, rfl⟩ := Vec.exists_numbers hvf
        obtain ⟨ys, rfl⟩ := Vec.exists_numbers hwf
        refine quotient_cases xs ys fun hxs => hv ?_
        rw [Vec.norm_numbers, hxs, hzero, same_iff]
      | false =>
        rcases IsSize.mul (isSize_norm v) (isSize_norm w) hfinite with hnorms | hnorms
        · rw [hnorms]
          rcases div_posInf (Entry.re (v.dot w)) with h | h
          · exact .inr ⟨0, by simp, h⟩
          · exact .inl h
        · rw [hnorms]
          exact .inl div_undefined

end Cosine

/-! ## The rule -/

section Rule

variable {b β : ℝ}

/-- The rule accepts a residual of the size `loss` after one of the size `before`, with the cosine
`turn`. -/
def Passes (b : ℝ) (turn loss before : Exact) : Prop :=
  ∃ β ℓ : ℝ, turn = real β ∧ loss = real ℓ ∧ real ((1 - β) ^ b * ℓ) ≤ before

theorem passes_real {ℓ : ℝ} {before : Exact} :
    Passes b (real β) (real ℓ) before ↔ real ((1 - β) ^ b * ℓ) ≤ before := by
  constructor
  · rintro ⟨β', ℓ', hβ', hℓ', h⟩
    cases hβ'
    cases hℓ'
    exact h
  · exact fun h => ⟨β, ℓ, rfl, rfl, h⟩

theorem pow_real (hβ : |β| ≤ 1) (hb : 0 < b) :
    Checked.pow (real (1 - β)) (real b) = .ok (real ((1 - β) ^ b)) := by
  have hbase : 0 ≤ 1 - β := sub_nonneg.2 (abs_le.1 hβ).2
  have hpow : Scalar.pow (real (1 - β)) (real b) = real ((1 - β) ^ b) :=
    if_pos (hbase.lt_or_eq.imp_right fun h => ⟨h.symm, hb.le⟩)
  have hexponent : ¬real b < 0.0 := by
    rw [ofScientific_eq, real_lt]
    norm_num
    exact hb.le
  have hnonneg : ¬real (1 - β) < 0.0 := by
    rw [ofScientific_eq, real_lt]
    norm_num
    exact (abs_le.1 hβ).2
  simp only [Checked.pow, hpow, hexponent, hnonneg, and_false, false_and, if_false]
  rfl

theorem pow_undefined (hb : 0 < b) : Checked.pow undefined (real b) = .ok undefined := by
  have hpow : Scalar.pow undefined (real b) = undefined := by
    refine (if_neg ?_).trans rfl
    rintro (h | h)
    · cases h
    · exact hb.ne' (Exact.real.inj h)
  have hzero : (0.0 : Exact) = real 0 := by norm_num
  simp only [Checked.pow, hpow, hzero, not_undefined_lt, real_lt, not_lt.2 hb.le, and_false,
    false_and, if_false]
  rfl

variable {K : Type} [Entry Exact K] {a : LevenbergMarquardt Exact} {v : Vec K}

theorem accepts_congr {R : Type} [Scalar R] {K : Type} [Entry R K] {a : LevenbergMarquardt R}
    {s s' : State R K} (hvelocity : s'.velocity = s.velocity) (hloss : s'.loss = s.loss) (v : Vec K)
    (loss : R) : a.accepts s' v loss = a.accepts s v loss := by
  unfold accepts
  rw [hvelocity, hloss]

/-- The rule always answers. -/
theorem accepts_iff {𝕜 : Type} [RCLike 𝕜] [ExactEntry 𝕜 K] [ExactParts 𝕜 K]
    (huphill : a.uphill = real b) (hb : 0 < b) (s : State Exact K) (v : Vec K) (loss : Exact) :
    ∃ taken, a.accepts s v loss = .ok taken ∧
      (taken = true ↔ Passes b (cosine v s.velocity) loss s.loss) := by
  have hone : (1.0 : Exact) = real 1 := by norm_num
  cases hfinite : loss.isReal with
  | false =>
    refine ⟨false, ?_, iff_of_false Bool.false_ne_true ?_⟩
    · simp only [accepts, isFinite_eq, hfinite]
      rfl
    · rintro ⟨β, ℓ, -, rfl, -⟩
      cases hfinite
  | true =>
    obtain ⟨ℓ, rfl⟩ := isReal_iff.1 hfinite
    rcases cosine_cases 𝕜 v s.velocity with hturn | ⟨β, hβ, hturn⟩
    · refine ⟨false, ?_, iff_of_false Bool.false_ne_true ?_⟩
      · have hbase : (1.0 - undefined : Exact) = undefined := sub_undefined
        have hweight : ¬undefined * real ℓ ≤ s.loss := id
        simp only [accepts, hturn, huphill, hbase, pow_undefined hb, isFinite_eq, isReal_real]
        exact congrArg Except.ok (decide_eq_false hweight)
      · rintro ⟨β, ℓ', hβ, -⟩
        cases hturn.symm.trans hβ
    · refine ⟨decide (real ((1 - β) ^ b * ℓ) ≤ s.loss), ?_, ?_⟩
      · simp only [accepts, hturn, huphill, hone, real_sub, pow_real hβ hb, isFinite_eq,
          isReal_real]
        rfl
      · rw [decide_eq_true_iff, hturn, passes_real]

/-- Where the cosine is not negative the rule only adds to what goes downhill. -/
theorem passes_of_le {before : Exact} {ℓ : ℝ} (hb : 0 < b) (hβ : 0 ≤ β) (hone : β ≤ 1)
    (hℓ : 0 ≤ ℓ) (h : real ℓ ≤ before) : Passes b (real β) (real ℓ) before := by
  refine passes_real.2 (Exact.le_trans (real_le.2 ?_) h)
  exact mul_le_of_le_one_left hℓ (Real.rpow_le_one (sub_nonneg.2 hone) (sub_le_self 1 hβ) hb.le)

end Rule

/-! ## Trials -/

section Trials

variable {σ R K : Type} [Scalar R] [Entry R K] {a : LevenbergMarquardt R} {c : Setup σ R K}
  {r s t : Run σ R K (State R K)} {J A : Matrix R K} {v fu : Vec K} {w : Workspace σ R K}
  {taken : Bool}

/-- The step from `r`, with the Jacobian `J` and the matrix `A` in the state `s`, tries the velocity
`v`; the residual there is `fu`, and the workspace `w` is left. -/
structure Tries (c : Setup σ R K) (r : Run σ R K (State R K)) (J A : Matrix R K)
    (s : Run σ R K (State R K)) (v fu : Vec K) (w : Workspace σ R K) : Prop where
  model : (model c).eval r = (.ok (J, A), s)
  trial : ∃ s', (velocity c J A).eval s = (.ok v, s') ∧
    (c.problem.evaluate (r.u + v)).eval s'.work = (.ok fu, w)

/-- What the verdict on a trial has left in `t`. -/
structure Leaves (r : Run σ R K (State R K)) (v fu : Vec K) (taken : Bool)
    (t : Run σ R K (State R K)) : Prop where
  u : t.u = if taken then r.u + v else r.u
  fu : t.fu = if taken then fu else r.fu
  velocity : t.ext.velocity = if taken then some v else r.ext.velocity

theorem verdict_eq (hgeodesic : a.geodesic.active = false) :
    (a.verdict c J A : Stepping σ R K (State R K) Bool) =
      velocity c J A >>= fun v => a.attempt c v v := by
  simp only [verdict, correctedStep, hgeodesic]
  rfl

/-- Up to the trial a step changes nothing that the rule reads. -/
theorem held_of_velocity (hmodel : (model c).eval r = (.ok (J, A), s)) {s' : Run σ R K (State R K)}
    (hvelocity : (velocity c J A).eval s = (.ok v, s')) :
    s'.u = r.u ∧ s'.fu = r.fu ∧ s'.ext.velocity = r.ext.velocity ∧ s'.ext.loss = r.ext.loss := by
  have hmodelled : Modelled c r J A s := (model_modelled r).ok hmodel
  have hidle : idle s' = idle s := ((velocity_idle c J A).ends s).ok hvelocity
  have hext : s'.ext = { s.ext with gradient := s'.ext.gradient } :=
    congrFun (congrArg Prod.snd hidle) s'.ext.gradient
  rw [Run.eq_of_rest ((congrArg Prod.fst hidle).trans hmodelled.rest), hext, hmodelled.ext]
  exact ⟨rfl, rfl, rfl, rfl⟩

/-- A step that returns has tried a velocity, and the rule has answered. -/
theorem verdict_tried (hgeodesic : a.geodesic.active = false)
    (hmodel : (model c).eval r = (.ok (J, A), s)) :
    (a.verdict c J A).Ends s
      (fun taken t => ∃ v fu, Tries c r J A s v fu t.work ∧
        a.accepts r.ext v (c.options.norm fu) = .ok taken ∧ Leaves r v fu taken t)
      (fun _ _ => ∀ v fu w, Tries c r J A s v fu w →
        ∀ taken, a.accepts r.ext v (c.options.norm fu) ≠ .ok taken) := by
  rw [verdict_eq hgeodesic, ends_bind]
  refine ends_iff.2 ⟨fun v s' hvelocity => ?_, fun e s' hfails v fu w htries taken h => ?_⟩
  · obtain ⟨hu, hfu, hlast, hloss⟩ := held_of_velocity hmodel hvelocity
    simp only [attempt, ends_bind, ends_get, Run.ends_evaluate, ends_ofFault, hu,
      accepts_congr (a := a) hlast hloss]
    refine ends_iff.2 ⟨fun fu w hevaluated => ⟨fun taken haccepts => ?_, fun f hfault => ?_⟩,
      fun e w hfails => ?_⟩
    · have htries : Tries c r J A s v fu w := ⟨hmodel, s', hvelocity, hevaluated⟩
      cases taken with
      | true => exact ⟨v, fu, htries, haccepts, rfl, rfl, rfl⟩
      | false => exact ⟨v, fu, htries, haccepts, rfl, hfu, hlast⟩
    · intro v' fu' w' htries taken haccepts
      obtain ⟨-, s'', hvelocity', hevaluated'⟩ := htries
      cases hvelocity.symm.trans hvelocity'
      cases hevaluated.symm.trans hevaluated'
      cases hfault.symm.trans haccepts
    · intro v' fu' w' htries taken
      obtain ⟨-, s'', hvelocity', hevaluated'⟩ := htries
      cases hvelocity.symm.trans hvelocity'
      cases hfails.symm.trans hevaluated'
  · obtain ⟨-, s'', hvelocity, -⟩ := htries
    cases hfails.symm.trans hvelocity

theorem Tries.unique (h : Tries c r J A s v fu w) {J' A' : Matrix R K}
    {s' : Run σ R K (State R K)} {v' fu' : Vec K} {w' : Workspace σ R K}
    (h' : Tries c r J' A' s' v' fu' w') : v' = v ∧ fu' = fu ∧ w' = w := by
  obtain ⟨hmodel, t, hvelocity, hevaluated⟩ := h
  obtain ⟨hmodel', t', hvelocity', hevaluated'⟩ := h'
  cases hmodel.symm.trans hmodel'
  cases hvelocity.symm.trans hvelocity'
  cases hevaluated.symm.trans hevaluated'
  exact ⟨rfl, rfl, rfl⟩

/-- The verdict on a trial is what the rule answers. -/
theorem Tries.verdict (h : Tries c r J A s v fu w) (hgeodesic : a.geodesic.active = false)
    (haccepts : a.accepts r.ext v (c.options.norm fu) = .ok taken) :
    ∃ t, (a.verdict c J A).eval s = (.ok taken, t) ∧ Leaves r v fu taken t := by
  have hends := verdict_tried (a := a) hgeodesic h.model
  rcases hverdict : (a.verdict c J A).eval s with ⟨e | taken', t⟩
  · exact absurd haccepts (hends.error hverdict v fu w h taken)
  · obtain ⟨v', fu', h', haccepts', hleaves⟩ := hends.ok hverdict
    obtain ⟨rfl, rfl, -⟩ := h.unique h'
    cases haccepts.symm.trans haccepts'
    exact ⟨t, rfl, hleaves⟩

/-- So a step that returns has been taken or not as the rule has answered. -/
theorem step_tried (hgeodesic : a.geodesic.active = false) (r : Run σ R K (State R K)) :
    (a.step c).Ends r
      (fun _ t => ∃ J A s v fu taken, Tries c r J A s v fu t.work ∧
        a.accepts r.ext v (c.options.norm fu) = .ok taken ∧ Leaves r v fu taken t)
      (fun _ _ => True) := by
  rw [step_eq, ends_bind]
  refine ends_iff.2 ⟨?_, fun _ _ _ => trivial⟩
  rintro ⟨J, A⟩ s hmodel
  refine (verdict_tried hgeodesic hmodel).bind (fun taken t ht => ?_) (fun _ _ _ => trivial)
  obtain ⟨v, fu, htries, haccepts, hleaves⟩ := ht
  refine (settle_adapted taken t).mono (fun _ t' ht' => ?_) (fun _ _ h => h)
  obtain ⟨hu, hfu, hwork, hext⟩ := ht'
  exact ⟨J, A, s, v, fu, taken, hwork ▸ htries, haccepts, hu.trans hleaves.u,
    hfu.trans hleaves.fu, (congrArg (·.velocity) hext).trans hleaves.velocity⟩

end Trials

/-! ## Trials downhill -/

section Downhill

variable {σ 𝕜 K : Type} [RCLike 𝕜] [Entry Exact K] [ExactEntry 𝕜 K] [ExactParts 𝕜 K]
  {a : LevenbergMarquardt Exact} {c : Setup σ Exact K} {r : Run σ Exact K (State Exact K)}
  {v fu : Vec K} {b : ℝ}

/-- A trial that does not turn back and whose residual is not larger than the present one. -/
def Descends (c : Setup σ Exact K) (r : Run σ Exact K (State Exact K)) (v fu : Vec K) : Prop :=
  ∃ β ℓ : ℝ, 0 ≤ β ∧ cosine v r.ext.velocity = real β ∧ c.options.norm fu = real ℓ ∧
    real ℓ ≤ c.options.norm r.fu

variable (𝕜) in
include 𝕜 in
theorem Descends.passes (hb : 0 < b) (hnorm : ∀ v, ¬c.options.norm v < real 0)
    (h : Descends c r v fu) :
    Passes b (cosine v r.ext.velocity) (c.options.norm fu) (c.options.norm r.fu) := by
  obtain ⟨β, ℓ, hβ, hturn, hℓ, hle⟩ := h
  have hone : β ≤ 1 := by
    rcases cosine_cases 𝕜 v r.ext.velocity with h | ⟨β', hβ', h⟩
    · cases hturn.symm.trans h
    · cases hturn.symm.trans h
      exact (abs_le.1 hβ').2
  have hnonneg : 0 ≤ ℓ := by
    have h := hnorm fu
    rw [hℓ] at h
    exact not_neg_real.1 h
  rw [hturn, hℓ]
  exact passes_of_le hb hβ hone hnonneg hle

end Downhill

end LevenbergMarquardt

end RootFinding
