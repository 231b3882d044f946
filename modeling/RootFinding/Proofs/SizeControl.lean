import RootFinding.Proofs.PseudoTransient

/-!
# Limits of step sizes

How far the controller moves the size of a pseudo-time step, for every steady band and for errors
that may be infinite.

* `StepController.updates`: the controller on one error after another. `updates_eval`: the sizes
  that it answers are `sizes`, and what was recorded before the first error is in none of them.
* `StepController.updates_bounded`: each size is within the limits of the one before it.
* `StepController.RollsBack`: the size after a rejected step.
* `PseudoTransient.Sized`: what the size and the controller of a run fulfil between its steps.
* `PseudoTransient.rejections_roll_back`: when a rejected step does not enlarge the size.
-/

namespace RootFinding

open Action Exact

namespace StepController

/-- The controller on one error after another, each with the size that the error before it has
given. -/
def updates {R : Type} [Scalar R] : List R → R → Action Fault (StepController R) (List (R × Bool))
  | [], _ => return []
  | error :: errors, alpha => do
    let answer ← update error alpha
    let answers ← updates errors answer.1
    return answer :: answers

/-- The sizes after steps with the given errors. -/
noncomputable def sizes (c : StepController Exact) (k : StepController ℝ) :
    List Exact → ℝ → List ℝ
  | [], _ => []
  | error :: errors, alpha =>
    alpha / c.divisor k error :: sizes c k errors (alpha / c.divisor k error)

variable {c : StepController Exact} {k : StepController ℝ} {alpha : ℝ} {error : Exact}
  {errors : List Exact}

/-! ## One step -/

theorem HasGains.of_qold (hc : c.HasGains k) (qold : Exact) :
    ({ c with qold } : StepController Exact).HasGains k := ⟨hc.qmin, hc.qmax, hc.gamma⟩

theorem HasGains.qmin_le_one (hc : c.HasGains k) (h : c.refusal? = none) : k.qmin ≤ 1 := by
  have hqmin := (of_refusal h).1.2.1
  rwa [hc.qmin, real_le] at hqmin

theorem ne_undefined_of_le {x : ℝ} (h : real x ≤ error) : error ≠ undefined := by
  rintro rfl
  exact h

theorem Accepted.gainAt_mem (hk : k.Accepted) (hqmin : k.qmin ≤ 1) (error : Exact) :
    1 / k.qmax ≤ k.gainAt error ∧ k.gainAt error ≤ 1 / k.qmin := by
  have hlimits : 1 / k.qmax ≤ 1 / k.qmin :=
    one_div_le_one_div_of_le hk.qmin (hqmin.trans hk.qmax)
  cases error with
  | real error =>
    rw [gainAt, gainFor]
    split
    · exact ⟨le_rfl, hlimits⟩
    · exact ⟨le_min (le_max_right _ _) hlimits, min_le_right _ _⟩
  | posInf => exact ⟨hlimits, le_rfl⟩
  | negInf | undefined => exact ⟨le_min le_rfl hlimits, min_le_right _ _⟩

theorem Accepted.divisor_mem (hk : k.Accepted) (hqmin : k.qmin ≤ 1) (c : StepController Exact)
    (error : Exact) : 1 / k.qmax ≤ c.divisor k error ∧ c.divisor k error ≤ 1 / k.qmin := by
  unfold divisor
  split
  · -- a gain in the steady band counts as one, which is between the limits
    exact ⟨(div_le_one (zero_lt_one.trans_le hk.qmax)).2 hk.qmax, (one_le_div hk.qmin).2 hqmin⟩
  · exact hk.gainAt_mem hqmin error

/-- The size changes by a factor between the limits. -/
theorem Accepted.size_mem (hk : k.Accepted) (hqmin : k.qmin ≤ 1) (c : StepController Exact)
    (error : Exact) (halpha : 0 < alpha) :
    k.qmin * alpha ≤ alpha / c.divisor k error ∧ alpha / c.divisor k error ≤ k.qmax * alpha := by
  have hdivisor := hk.divisor_pos c error
  obtain ⟨hlow, hhigh⟩ := hk.divisor_mem hqmin c error
  rw [div_le_iff₀ (zero_lt_one.trans_le hk.qmax)] at hlow
  rw [le_div_iff₀ hk.qmin] at hhigh
  rw [le_div_iff₀ hdivisor, div_le_iff₀ hdivisor]
  constructor
  · calc k.qmin * alpha * c.divisor k error = alpha * (c.divisor k error * k.qmin) := by ring
      _ ≤ alpha := mul_le_of_le_one_right halpha.le hhigh
  · calc alpha ≤ alpha * (c.divisor k error * k.qmax) := le_mul_of_one_le_right halpha.le hlow
      _ = k.qmax * alpha * c.divisor k error := by ring

theorem update_real (hc : c.HasGains k) (hk : k.Accepted) (herror : error ≠ undefined)
    (alpha : ℝ) :
    (update error (real alpha)).eval c =
      (.ok (real (alpha / c.divisor k error), decide (error ≤ real 1)),
        { c with qold := c.rollback k error (real alpha) }) := by
  rw [update_eval hc hk herror, Exact.real_div (hk.divisor_pos c error).ne']

/-- After a rejected step the size is what the update itself has recorded. -/
theorem rollback_real (hk : k.Accepted) (hrejected : ¬error ≤ real 1) (alpha : ℝ) :
    c.rollback k error (real alpha) = real (alpha / c.divisor k error) := by
  rw [rollback_of_rejected hrejected, Exact.real_div (hk.divisor_pos c error).ne']

/-! ## One step after another -/

theorem sizes_of_qold (qold : Exact) (errors : List Exact) (alpha : ℝ) :
    ({ c with qold } : StepController Exact).sizes k errors alpha = c.sizes k errors alpha := by
  induction errors generalizing alpha with
  | nil => rfl
  | cons error errors ih => exact congrArg (_ :: ·) (ih _)

theorem length_sizes (errors : List Exact) (alpha : ℝ) :
    (c.sizes k errors alpha).length = errors.length := by
  induction errors generalizing alpha with
  | nil => rfl
  | cons error errors ih => rw [sizes, List.length_cons, ih, List.length_cons]

theorem Accepted.sizes_mem (hk : k.Accepted) (hqmin : k.qmin ≤ 1) (errors : List Exact)
    (halpha : 0 < alpha) {i : Nat} (hi : i < (c.sizes k errors alpha).length) :
    alpha * k.qmin ^ (i + 1) ≤ (c.sizes k errors alpha)[i] ∧
      (c.sizes k errors alpha)[i] ≤ alpha * k.qmax ^ (i + 1) := by
  induction errors generalizing alpha i with
  | nil => simp [sizes] at hi
  | cons error errors ih =>
    obtain ⟨hlow, hhigh⟩ := hk.size_mem hqmin c error halpha
    cases i with
    | zero =>
      rw [zero_add, pow_one, pow_one, mul_comm alpha, mul_comm alpha]
      exact ⟨hlow, hhigh⟩
    | succ i =>
      have hqmax : 0 ≤ k.qmax := zero_le_one.trans hk.qmax
      have hi' : i < (c.sizes k errors (alpha / c.divisor k error)).length :=
        Nat.lt_of_succ_lt_succ hi
      obtain ⟨hlow', hhigh'⟩ := ih (div_pos halpha (hk.divisor_pos c error)) hi'
      simp only [sizes, List.getElem_cons_succ]
      constructor
      · calc alpha * k.qmin ^ (i + 1 + 1) = k.qmin * alpha * k.qmin ^ (i + 1) := by ring
          _ ≤ alpha / c.divisor k error * k.qmin ^ (i + 1) :=
            mul_le_mul_of_nonneg_right hlow (pow_nonneg hk.qmin.le _)
          _ ≤ _ := hlow'
      · calc (c.sizes k errors (alpha / c.divisor k error))[i] ≤ _ := hhigh'
          _ ≤ k.qmax * alpha * k.qmax ^ (i + 1) :=
            mul_le_mul_of_nonneg_right hhigh (pow_nonneg hqmax _)
          _ = alpha * k.qmax ^ (i + 1 + 1) := by ring

theorem updates_eval (hc : c.HasGains k) (hk : k.Accepted)
    (herrors : ∀ error ∈ errors, error ≠ undefined) (alpha : ℝ) :
    ∃ back, (updates errors (real alpha)).eval c =
      (.ok (errors.zipWith (fun error next => (real next, decide (error ≤ real 1)))
        (c.sizes k errors alpha)), { c with qold := back }) := by
  induction errors generalizing c alpha with
  | nil => exact ⟨c.qold, rfl⟩
  | cons error errors ih =>
    have hfirst := update_real hc hk (herrors error List.mem_cons_self) alpha
    obtain ⟨back, hrest⟩ := ih (hc.of_qold (c.rollback k error (real alpha)))
      (fun e he => herrors e (List.mem_cons_of_mem _ he)) (alpha / c.divisor k error)
    rw [sizes_of_qold] at hrest
    refine ⟨back, ?_⟩
    simp only [updates, eval_bind, hfirst, hrest, eval_pure]
    rfl

/-- **The limits of the sizes.**  Where the limits and the safety factor are real numbers, an
accepted controller answers every error that is not negative with a size within the limits of the
old one. After a rejected step the size is what the same update has recorded. On one error after
another the sizes stay between the initial one times the powers of the limits, and neither they nor
the decisions depend on what was recorded before the first error. -/
theorem updates_bounded (hc : c.HasGains k) (ha : c.refusal? = none) :
    (∀ alpha error, 0 < alpha → real 0 ≤ error →
      ∃ next, 0 < next ∧ k.qmin * alpha ≤ next ∧ next ≤ k.qmax * alpha ∧
        ∀ qold, ∃ back, (update error (real alpha)).eval { c with qold } =
          (.ok (real next, decide (error ≤ real 1)), { c with qold := back }) ∧
          (¬error ≤ real 1 → back = real next)) ∧
      ∀ initial errors, 0 < initial → (∀ error ∈ errors, real 0 ≤ error) →
        ∃ sizes : List ℝ, sizes.length = errors.length ∧
          (∀ i, (hi : i < sizes.length) → 0 < sizes[i] ∧
            initial * k.qmin ^ (i + 1) ≤ sizes[i] ∧ sizes[i] ≤ initial * k.qmax ^ (i + 1)) ∧
          ∀ qold, ∃ back, (updates errors (real initial)).eval { c with qold } =
            (.ok (errors.zipWith (fun error next => (real next, decide (error ≤ real 1))) sizes),
              { c with qold := back }) := by
  have hk := hc.accepted ha
  have hqmin := hc.qmin_le_one ha
  constructor
  · intro alpha error halpha herror
    obtain ⟨hlow, hhigh⟩ := hk.size_mem hqmin c error halpha
    refine ⟨_, div_pos halpha (hk.divisor_pos c error), hlow, hhigh, fun qold => ⟨_,
      update_real (hc.of_qold qold) hk (ne_undefined_of_le herror) alpha, fun hrejected => ?_⟩⟩
    exact rollback_real hk hrejected alpha
  · intro initial errors hinitial herrors
    refine ⟨c.sizes k errors initial, length_sizes errors initial, fun i hi => ?_, fun qold => ?_⟩
    · obtain ⟨hlow, hhigh⟩ := hk.sizes_mem hqmin errors hinitial hi
      exact ⟨(mul_pos hinitial (pow_pos hk.qmin _)).trans_le hlow, hlow, hhigh⟩
    · rw [← sizes_of_qold qold]
      exact updates_eval (hc.of_qold qold) hk (fun e he => ne_undefined_of_le (herrors e he))
        initial

/-- An error of zero, an accepted one and a rejected one. -/
theorem standard_bounded :
    (standard : StepController Exact).HasGains standard ∧
      (standard : StepController Exact).refusal? = none ∧
      ∃ a b d : ℝ, (2 / 10 ≤ a ∧ a ≤ 10) ∧ ((2 / 10) ^ 2 ≤ b ∧ b ≤ 10 ^ 2) ∧
        ((2 / 10) ^ 3 ≤ d ∧ d ≤ 10 ^ 3) ∧
        ∀ qold, ∃ back, (updates [real 0, real (1 / 2), real 9] (real 1)).eval
          { standard with qold } =
            (.ok [(real a, true), (real b, true), (real d, false)],
              { standard with qold := back }) := by
  have hgains : (standard : StepController Exact).HasGains standard := ⟨rfl, rfl, rfl⟩
  have haccepted := PseudoTransient.standard_refusal
  refine ⟨hgains, haccepted, ?_⟩
  have herrors : ∀ error ∈ [real 0, real (1 / 2), real 9], real 0 ≤ error := by
    simp
  obtain ⟨sizes, hlength, hsizes, hupdates⟩ :=
    (updates_bounded hgains haccepted).2 1 _ one_pos herrors
  obtain ⟨a, b, d, rfl⟩ := List.length_eq_three.1 hlength
  have ha := (hsizes 0 (by simp)).2
  have hb := (hsizes 1 (by simp)).2
  have hd := (hsizes 2 (by simp)).2
  norm_num [standard] at ha hb hd
  refine ⟨a, b, d, by norm_num [ha], by norm_num [hb], by norm_num [hd], fun qold => ?_⟩
  obtain ⟨back, hback⟩ := hupdates qold
  refine ⟨back, hback.trans ?_⟩
  norm_num

/-! ## Rejected steps -/

/-- The size `next` after a rejected step of the size `alpha` with the given error: not above the
old one exactly if the error is at least the safety factor or no step enlarges the size, and below
it exactly if the error is above the safety factor and a step may reduce the size. -/
structure RollsBack (k : StepController ℝ) (error : Exact) (alpha next : ℝ) : Prop where
  pos : 0 < next
  le_iff : next ≤ alpha ↔ real k.gamma ≤ error ∨ k.qmax = 1
  lt_iff : next < alpha ↔ real k.gamma < error ∧ k.qmin < 1

/-- A rejected step has a gain of at least one unless it enlarges the size. -/
theorem Accepted.one_le_gainAt (hk : k.Accepted) (hqmin : k.qmin ≤ 1) (herror : real 1 < error) :
    1 ≤ k.gainAt error ↔ real k.gamma ≤ error ∨ k.qmax = 1 := by
  have hlargest : 1 ≤ 1 / k.qmin := (one_le_div hk.qmin).2 hqmin
  have hsmallest : 1 ≤ 1 / k.qmax ↔ k.qmax = 1 := by
    rw [one_le_div (zero_lt_one.trans_le hk.qmax)]
    exact ⟨fun h => le_antisymm h hk.qmax, fun h => h.le⟩
  cases error with
  | real error =>
    have hnonzero : error ≠ 0 := (zero_lt_one.trans herror).ne'
    rw [gainAt, gainFor, if_neg hnonzero, le_min_iff, le_max_iff, one_le_div hk.gamma, hsmallest,
      real_le]
    exact ⟨fun h => h.1, fun h => ⟨h, hlargest⟩⟩
  | posInf => exact ⟨fun _ => .inl trivial, fun _ => hlargest⟩
  | negInf | undefined => exact herror.elim

theorem Accepted.one_lt_gainAt (hk : k.Accepted) (herror : real 1 < error) :
    1 < k.gainAt error ↔ real k.gamma < error ∧ k.qmin < 1 := by
  have hlargest : 1 < 1 / k.qmin ↔ k.qmin < 1 := one_lt_div hk.qmin
  have hsmallest : ¬1 < 1 / k.qmax := by
    rw [one_lt_div (zero_lt_one.trans_le hk.qmax)]
    exact hk.qmax.not_gt
  cases error with
  | real error =>
    have hnonzero : error ≠ 0 := (zero_lt_one.trans herror).ne'
    rw [gainAt, gainFor, if_neg hnonzero, lt_min_iff, lt_max_iff, one_lt_div hk.gamma, hlargest,
      real_lt, or_iff_left hsmallest]
  | posInf => exact ⟨fun h => ⟨trivial, hlargest.1 h⟩, fun h => hlargest.2 h.2⟩
  | negInf | undefined => exact herror.elim

theorem not_le_of_lt {x : ℝ} (h : real x < error) : ¬error ≤ real x := by
  cases error with
  | real y => exact mt real_le.1 (not_le.2 (real_lt.1 h))
  | posInf => exact id
  | negInf | undefined => exact h.elim

theorem Accepted.rollsBack (hk : k.Accepted) (hqmin : k.qmin ≤ 1) (c : StepController Exact)
    (halpha : 0 < alpha) (herror : real 1 < error) :
    k.RollsBack error alpha (alpha / c.divisor k error) := by
  have hdivisor : c.divisor k error = k.gainAt error := if_neg fun h => not_le_of_lt herror h.1
  have hgain := hk.gainAt_pos error
  rw [hdivisor]
  refine ⟨div_pos halpha hgain, ?_, ?_⟩
  · rw [div_le_iff₀ hgain, le_mul_iff_one_le_right halpha, hk.one_le_gainAt hqmin herror]
  · rw [div_lt_iff₀ hgain, lt_mul_iff_one_lt_right halpha, hk.one_lt_gainAt herror]

/-- With an error or a size that is undefined, the next size is undefined. -/
theorem update_undefined (hc : c.HasGains k) (hk : k.Accepted) {alpha : Exact}
    (h : error = undefined ∨ alpha = undefined) :
    ∃ accepted back, (update error alpha).eval c =
      (.ok (undefined, accepted), { c with qold := back }) := by
  by_cases herror : error = undefined
  · subst herror
    have hzero : (0.0 : Exact) = real 0 := by norm_num
    have hsame : ¬Scalar.same undefined (real 0) = true := by simp [same_iff]
    have hgain : c.gain undefined = undefined := by
      rw [gain, undefined_div, Scalar.clamp, Scalar.greatest, if_neg not_undefined_lt,
        Scalar.least, if_neg not_lt_undefined]
    have hback : Checked.div alpha undefined = .ok undefined := by
      rw [Checked.div, hzero, if_neg hsame, div_undefined]
    have hrejected : accepts undefined = false := decide_eq_false id
    refine ⟨false, undefined, ?_⟩
    simp only [update, stepsize, eval_bind, eval_get, hzero, if_neg hsame, hgain, hback, hrejected]
    rfl
  · obtain rfl := h.resolve_left herror
    exact ⟨_, _, by rw [update_eval hc hk herror, undefined_div]⟩

/-- A controller with a safety factor above one. -/
noncomputable def eager : StepController Exact := { standard with gamma := real (2 : ℕ) }

/-- It is accepted, and enlarges the size after a step that it rejects. -/
theorem eager_enlarges :
    eager.refusal? = none ∧ real 1 < real (3 / 2) ∧
      ∃ next, 1 < next ∧ (update (real (3 / 2)) (real 1)).eval eager =
        (.ok (real next, false), { eager with qold := real next }) := by
  let k : StepController ℝ := { standard with gamma := 2 }
  have hgains : eager.HasGains k := ⟨rfl, rfl, rfl⟩
  have haccepted : eager.refusal? = none := by
    unfold refusal?
    simp only [eager, standard]
    norm_num
  have hk := hgains.accepted haccepted
  have hrejected : ¬real (3 / 2) ≤ real 1 := by norm_num
  have hdivisor : eager.divisor k (real (3 / 2)) = 3 / 4 := by
    rw [divisor, if_neg fun h => hrejected h.1, gainAt, gainFor, if_neg (by norm_num)]
    norm_num [k, standard]
  refine ⟨haccepted, by norm_num, 1 / (3 / 4), by norm_num, ?_⟩
  rw [update_real hgains hk (by simp), rollback_real hk hrejected, hdivisor,
    decide_eq_false hrejected]

end StepController

namespace PseudoTransient

section Steps

variable {σ R K : Type} [Scalar R] [Entry R K] {c : Setup σ R K} {r t : Run σ R K (State R K)}

/-- The size and the controller after a step are those that the controller answers for its
error. -/
theorem Stepped.updated (h : Stepped c r t) :
    ∃ accepted, (StepController.update t.ext.error r.ext.alpha).eval r.ext.controller =
      (.ok (t.ext.alpha, accepted), t.ext.controller) := by
  obtain ⟨error, next, accepted, controller, -, hupdate, hext⟩ := h.adapted
  refine ⟨accepted, ?_⟩
  rw [hext]
  exact hupdate

end Steps

section Runs

variable {σ K : Type} [Entry Exact K] {a : PseudoTransient Exact} {c : Setup σ Exact K}
  {k : StepController ℝ} {r₀ r t : Run σ Exact K (State Exact K)} {initial : ℝ}

/-- Between the steps the controller is that of the settings but for the size that it has recorded,
and the size is positive unless it has become undefined. -/
structure Sized (a : PseudoTransient Exact) (r : Run σ Exact K (State Exact K)) : Prop where
  controller : ∃ qold, r.ext.controller = { a.controller with qold }
  alpha : r.ext.alpha = undefined ∨ ∃ alpha, 0 < alpha ∧ r.ext.alpha = real alpha

theorem Sized.step (hc : a.controller.HasGains k) (hk : k.Accepted) (hr : Sized a r)
    (h : Stepped c r t) : Sized a t := by
  obtain ⟨qold, hqold⟩ := hr.controller
  obtain ⟨accepted, hupdate⟩ := h.updated
  have hgains := hc.of_qold qold
  rw [hqold] at hupdate
  by_cases hundefined : t.ext.error = undefined ∨ r.ext.alpha = undefined
  · obtain ⟨_, back, heval⟩ := StepController.update_undefined hgains hk hundefined
    have hanswer := hupdate.symm.trans heval
    simp only [Prod.mk.injEq, Except.ok.injEq] at hanswer
    exact ⟨⟨back, hanswer.2⟩, .inl hanswer.1.1⟩
  · rw [not_or] at hundefined
    obtain ⟨alpha, halpha, hr⟩ := hr.alpha.resolve_left hundefined.2
    rw [hr, StepController.update_real hgains hk hundefined.1] at hupdate
    simp only [Prod.mk.injEq, Except.ok.injEq] at hupdate
    exact ⟨⟨_, hupdate.2.symm⟩,
      .inr ⟨_, div_pos halpha (hk.divisor_pos _ _), hupdate.1.1.symm⟩⟩

/-- The size and the controller wherever a run gets. -/
theorem sized_of_leads {world : σ} (hc : a.controller.HasGains k) (hk : k.Accepted)
    (hinitial : a.initial = real initial) (hpositive : 0 < initial)
    (hstart : Run.start a.strategy c world = .ok r₀) (h : Run.Leads a.strategy c r₀ r)
    (hr : r.stopped = false) : Sized a r := by
  refine h.invariant (I := fun r => r.stopped = false → Sized a r) (fun _ => ?_)
    (fun s ih hs => ⟨(ih hs).controller, (ih hs).alpha⟩) (fun s t ih hactive hstep ht => ?_) hr
  · have hprepared := start_ok (Run.start_prepared hstart)
    exact ⟨⟨_, hprepared.controller⟩,
      .inr ⟨initial, hpositive, hprepared.alpha.trans hinitial⟩⟩
  · exact (ih (Run.stopped_of_isActive hactive)).step hc hk
      (exists_stepped (r := s) hstep ht).1

/-- **Rejected steps.**  An accepted controller whose limits and safety factor are real numbers
answers every error above one with a rejection. The next size is then not above the old one exactly
if the error is at least the safety factor or no step enlarges the size, as it always is with a
safety factor up to one. So it is in every step of a run that goes on from a size that is defined. -/
theorem rejections_roll_back (a : PseudoTransient Exact) (c : Setup σ Exact K)
    (hc : a.controller.HasGains k) (hk : a.controller.refusal? = none) :
    (∀ alpha error, 0 < alpha → real 1 < error → ∃ next, k.RollsBack error alpha next ∧
      ∀ qold, (StepController.update error (real alpha)).eval { a.controller with qold } =
        (.ok (real next, false), { a.controller with qold := real next })) ∧
      ∀ world initial r₀ r t, a.initial = real initial → a.refusal? = none →
        Run.start a.strategy c world = .ok r₀ → Run.Leads a.strategy c r₀ r → r.isActive →
          (Run.step a.strategy c).eval r = (.ok (), t) → t.stopped = false →
            r.ext.alpha ≠ undefined → real 1 < t.ext.error →
              ∃ alpha next, r.ext.alpha = real alpha ∧ t.ext.alpha = real next ∧
                k.RollsBack t.ext.error alpha next := by
  have haccepted := hc.accepted hk
  have hqmin := hc.qmin_le_one hk
  have hdefined {error : Exact} (herror : real 1 < error) : error ≠ undefined :=
    StepController.ne_undefined_of_le (le_of_lt herror)
  constructor
  · intro alpha error halpha herror
    refine ⟨_, haccepted.rollsBack hqmin a.controller halpha herror, fun qold => ?_⟩
    have hrejected := StepController.not_le_of_lt herror
    have hgains := hc.of_qold qold
    rw [StepController.update_real hgains haccepted (hdefined herror),
      StepController.rollback_real haccepted hrejected, decide_eq_false hrejected]
    rfl
  · intro world initial r₀ r t hinitial ha hstart hr hactive hstep ht halpha herror
    have hsized := sized_of_leads hc haccepted hinitial (initial_pos hinitial ha) hstart hr
      (Run.stopped_of_isActive hactive)
    obtain ⟨qold, hcontroller⟩ := hsized.controller
    obtain ⟨alpha, hpositive, hsize⟩ := hsized.alpha.resolve_left halpha
    obtain ⟨accepted, hupdate⟩ := (exists_stepped (r := r) hstep ht).1.updated
    rw [hcontroller, hsize,
      StepController.update_real (hc.of_qold qold) haccepted (hdefined herror)] at hupdate
    simp only [Prod.mk.injEq, Except.ok.injEq] at hupdate
    exact ⟨alpha, _, hsize, hupdate.1.1.symm, haccepted.rollsBack hqmin _ hpositive herror⟩

end Runs

/-- The first step of the run that leads away from its root is rejected, and reduces the size. -/
theorem fleeing_rolls_back :
    (ofSize (1 / 2) .byMatrix).controller.HasGains .standard ∧
      (ofSize (1 / 2) .byMatrix).controller.refusal? = none ∧
      ∃ r t, Run.start (ofSize (1 / 2) .byMatrix).strategy fleeingSetup () = .ok r ∧
        (Run.step (ofSize (1 / 2) .byMatrix).strategy fleeingSetup).eval r = (.ok (), t) ∧
        t.stopped = false ∧ r.ext.alpha = real (1 / 2) ∧ real 1 < t.ext.error ∧
        ∃ next, t.ext.alpha = real next ∧ next < 1 / 2 := by
  have hgains : (ofSize (1 / 2) .byMatrix).controller.HasGains .standard := ⟨rfl, rfl, rfl⟩
  have haccepted : (ofSize (1 / 2) .byMatrix).refusal? = none := ofSize_refusal one_half_pos _
  have hk : StepController.Accepted .standard :=
    StepController.accepted_of_refusal standard_refusal
  obtain ⟨r, t, hstart, -, hu, -, hstep, hgoing, hx⟩ :=
    fleeing_goes (d := fun _ => -1) one_half_pos .byMatrix rfl (by norm_num)
      fun D b w hD hb hw => fleeing_eliminates hD hb (by rw [hw]; rfl)
  have hactive : r.isActive = true := by
    rw [Run.start_eq hstart]
    simp [Run.isActive, Run.ofStart, fleeingSetup]
  obtain ⟨hboundary, hbefore⟩ := Boundary.of_start (k := .standard) rfl rfl haccepted hstart
  have hstepped := (exists_stepped (r := r) hstep hgoing).1
  obtain ⟨-, herror⟩ := hboundary.step hk hstepped (hbefore ▸ hu) hu hx fleeing_scale
  have hlarge : real 1 < t.ext.error := by
    rw [herror, real_lt, StepController.errorOf]
    refine Real.lt_sqrt_of_sq_lt ?_
    norm_num [StepController.standard]
  obtain ⟨alpha, next, halpha, hnext, hback⟩ :=
    (rejections_roll_back (ofSize (1 / 2) .byMatrix) fleeingSetup hgains standard_refusal).2 ()
      (1 / 2) r r t rfl haccepted hstart .refl hactive hstep hgoing
      (by rw [hboundary.sizes.2]; simp) hlarge
  obtain rfl := Exact.real.inj (halpha.symm.trans hboundary.sizes.2)
  -- the standard safety factor is below one, so a rejected step has an error above it
  have hfactor : real (StepController.standard : StepController ℝ).gamma < t.ext.error :=
    lt_of_real_lt (by norm_num [StepController.standard]) hlarge
  exact ⟨hgains, standard_refusal, r, t, hstart, hstep, hgoing, hboundary.sizes.2, hlarge, next,
    hnext, hback.lt_iff.2 ⟨hfactor, by norm_num [StepController.standard]⟩⟩

end PseudoTransient

end RootFinding
