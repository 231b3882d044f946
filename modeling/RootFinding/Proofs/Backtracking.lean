import RootFinding.LineSearch.Armijo
import RootFinding.Proofs.Exact
import RootFinding.Proofs.Outcome

/-!
# Backtracking of exact arithmetic

Where a backtracking search ends, for a merit that is infinite or not negative. It tries the full
step, then the least point of a parabola, then those of cubics between zero and the last trial. So
it answers a part of the step between zero and one at which the merit has decreased by enough, or
finds nothing.

* `Armijo.root_mem`, `Armijo.cubic_cases`: the least point of a cubic is in the first two thirds of
  the last trial.
* `Armijo.Bracket`: what a trial hands on to the next one. `Armijo.Bracket.halve`: a refused cubic
  hands it on.
* `Armijo.backtrack_halvings`: the halvings down to the least part are fuel enough.
* `Armijo.Found`: the ways to an answer. `Armijo.search_found`: so ends every search along a merit
  that is finite and not zero at zero; `Armijo.search_not_real`: any other one finds nothing.
-/

namespace RootFinding

open Action Exact

namespace Armijo

/-! ## Cubics -/

section Cubics

variable {f a0 a1 b h : ℝ}

/-- The leading coefficient of the cubic with value `f` and slope `-f` at zero and two merits. -/
noncomputable def leading (f a0 g0 a1 g1 : ℝ) : ℝ :=
  (a0 * a0 * (g1 - f - -f * a1) - a1 * a1 * (g0 - f - -f * a0)) / (a0 * a0 * (a1 * a1) * (a1 - a0))

/-- Its second coefficient. -/
noncomputable def second (f a0 g0 a1 g1 : ℝ) : ℝ :=
  (-(a0 * a0 * a0) * (g1 - f - -f * a1) + a1 * a1 * a1 * (g0 - f - -f * a0)) /
    (a0 * a0 * (a1 * a1) * (a1 - a0))

/-- The cubic goes through the last merit. -/
theorem cubic_last (hpos : 0 < a1) (hlt : a1 < a0) (f g0 g1 : ℝ) :
    leading f a0 g0 a1 g1 * (a1 * a1 * a1) + second f a0 g0 a1 g1 * (a1 * a1) - f * a1 + f =
      g1 := by
  have h0 : a0 ≠ 0 := (hpos.trans hlt).ne'
  have hdifference : a1 - a0 ≠ 0 := (sub_neg.2 hlt).ne
  rw [leading, second]
  field_simp
  ring

/-- Where the slope of a cubic is zero that is negative at zero and positive at `h`. -/
theorem root_mem {p : ℝ} (hp : p ≠ 0) (hf : 0 < f) (hh : 0 < h)
    (hend : f < p * (h * h) + 2 * b * h) :
    0 < b * b + p * f ∧ 0 < (-b + √(b * b + p * f)) / p ∧ (-b + √(b * b + p * f)) / p < h := by
  rcases lt_or_gt_of_ne hp with hneg | hpos
  · have hb : 0 < b := by
      have hproduct : 0 < 2 * b * h := by linarith [mul_neg_of_neg_of_pos hneg (mul_pos hh hh)]
      linarith [pos_of_mul_pos_left hproduct hh.le]
    have hdiscriminant : 0 < b * b + p * f := by
      have hsquares : (f - p * (h * h)) ^ 2 < (2 * b * h) ^ 2 :=
        pow_lt_pow_left₀ (by linarith)
          (by linarith [mul_neg_of_neg_of_pos hneg (mul_pos hh hh)]) two_ne_zero
      have hproduct : 0 < (b * b + p * f) * (4 * (h * h)) := by
        linarith [sq_nonneg (f + p * (h * h))]
      exact pos_of_mul_pos_left hproduct (by positivity)
    have hbelow : √(b * b + p * f) < b := by
      rw [Real.sqrt_lt' hb]
      linarith [mul_neg_of_neg_of_pos hneg hf]
    have habove : p * h + b < √(b * b + p * f) := by
      refine Real.lt_sqrt_of_sq_lt ?_
      linarith [mul_neg_of_neg_of_pos hneg (sub_pos.2 hend)]
    refine ⟨hdiscriminant, div_pos_of_neg_of_neg (by linarith) hneg, ?_⟩
    rw [div_lt_iff_of_neg hneg]
    linarith
  · have hend' : 0 < p * h + b := by
      have hproduct : 0 < (p * h + 2 * b) * h := by linarith
      linarith [pos_of_mul_pos_left hproduct hh.le, mul_pos hpos hh]
    have habove : b < √(b * b + p * f) := by
      refine Real.lt_sqrt_of_sq_lt ?_
      linarith [mul_pos hpos hf]
    have hbelow : √(b * b + p * f) < p * h + b := by
      rw [Real.sqrt_lt' hend']
      linarith [mul_pos hpos (sub_pos.2 hend)]
    refine ⟨by linarith [mul_pos hpos hf, mul_self_nonneg b], div_pos (by linarith) hpos, ?_⟩
    rw [div_lt_iff₀ hpos]
    linarith

end Cubics

/-! ## Trials -/

/-- The merit `m` is low enough after the part `a` of a step, for the merit `f` at zero. -/
def Low (f a : ℝ) (m : Exact) : Prop := m ≤ real ((1 - 1e-4 * a) * f)

/-- What a trial hands on to the next one: the last trial `a1` is positive and below the one before,
and its merit is above the line that falls by a quarter of the slope. A quarter is what the slope of
a cubic at zero weighs in the mean with three quarters of that at two thirds of the way. -/
structure Bracket (f a0 a1 : ℝ) (g1 : Exact) : Prop where
  pos : 0 < a1
  lt : a1 < a0
  high : real (f - f * a1 / (4 : ℕ)) < g1

section Trials

variable {f a0 a1 a2 : ℝ} {g1 g2 : Exact}

theorem accepts_iff (f a : ℝ) (m : Exact) :
    accepts (real f) (real (-f)) (real a) m = true ↔ Low f a m := by
  have hbound : real f + sufficient * real a * real (-f) = real ((1 - 1e-4 * a) * f) := by
    rw [sufficient, ofScientific_eq, real_mul, real_mul, real_add]
    congr 1
    ring
  rw [accepts, hbound, decide_eq_true_eq, Low]

theorem not_accepts_undefined (f : ℝ) (m : Exact) :
    accepts (real f) (real (-f)) undefined m = false := by
  rw [accepts, decide_eq_false_iff_not]
  exact not_le_undefined

/-- Every cubic step reduces the last one too much or too little. -/
theorem outside_real (hpos : 0 < a1) (a2 : ℝ) : outside (real a1) (real a2) = true := by
  have htwo : (2.0 : Exact) = real 2 := by norm_num
  have hone : (1.0 : Exact) = real 1 := by norm_num
  rw [outside, htwo, hone, real_div two_ne_zero, real_div hpos.ne', real_sub, real_sub,
    ofScientific_eq, Bool.or_eq_true_iff, decide_eq_true_eq, decide_eq_true_eq, real_lt, real_lt]
  rcases lt_or_ge a2 (a1 / 2) with h | h
  · exact .inl (by linarith)
  · right
    have hratio : 1 / 2 ≤ a2 / a1 := by
      rw [le_div_iff₀ hpos]
      linarith
    norm_num
    linarith

theorem not_outside_undefined (a1 : ℝ) : outside (real a1) undefined = false := by
  have hratio : undefined / real a1 = undefined := undefined_div
  rw [outside, hratio, sub_undefined, sub_undefined, Bool.or_eq_false_iff,
    decide_eq_false_iff_not, decide_eq_false_iff_not]
  exact ⟨not_lt_undefined, not_undefined_lt⟩

/-- What a cubic hands on, if it is refused. -/
theorem Bracket.halve (h : Bracket f a0 a1 g1) (hf : 0 < f) (hlt : 3 * a2 < 2 * a1)
    (hhigh : real ((1 - 1e-4 * a2) * f) < g2) : Bracket f a1 (a1 / 2) g2 where
  pos := half_pos h.pos
  lt := half_lt_self h.pos
  high := by
    refine lt_of_real_lt ?_ hhigh
    have hproduct : 3 * (a2 * f) < 2 * (a1 * f) := by
      linarith [mul_lt_mul_of_pos_right hlt hf]
    have hsmall : 0 < a1 * f := mul_pos h.pos hf
    push_cast
    norm_num
    linarith

/-- The least point of a cubic by its coefficients. -/
theorem cubic_real (hpos : 0 < a1) (hlt : a1 < a0) (f g0 g : ℝ) :
    cubic (real f) (real (-f)) (real a0) (real g0) (real a1) (real g) =
      real (-second f a0 g0 a1 g +
        √|second f a0 g0 a1 g * second f a0 g0 a1 g + 3 * leading f a0 g0 a1 g * f|) /
          real (3 * leading f a0 g0 a1 g) := by
  have hthree : (3.0 : Exact) = real 3 := by norm_num
  have h0 : 0 < a0 := hpos.trans hlt
  have hfactor : a0 * a0 * (a1 * a1) * (a1 - a0) ≠ 0 :=
    mul_ne_zero (by positivity) (sub_neg.2 hlt).ne
  have habs (x : ℝ) : Scalar.abs (real x) = real |x| := rfl
  unfold cubic
  simp only [square_real, real_mul, real_sub, real_neg, real_add, real_div hfactor, hthree, habs,
    sqrt_real (abs_nonneg _), leading, second, mul_neg, sub_neg_eq_add]

/-- A cubic through an infinite merit has no least point. -/
theorem cubic_infinite (hf : 0 < f) (hpos : 0 < a1) (hlt : a1 < a0) (g0 : ℝ) :
    cubic (real f) (real (-f)) (real a0) (real g0) (real a1) posInf = undefined := by
  have hthree : (3.0 : Exact) = real 3 := by norm_num
  have h0 : 0 < a0 := hpos.trans hlt
  have hfactor : a0 * a0 * (a1 * a1) * (a1 - a0) < 0 :=
    mul_neg_of_pos_of_neg (by positivity) (sub_neg.2 hlt)
  have hrest (x y : ℝ) : posInf - real x - real y = posInf := rfl
  have hsquare : real (a0 * a0) * posInf = posInf := real_mul_posInf (mul_pos h0 h0)
  have hcube : real (-(a0 * a0 * a0)) * posInf = negInf := real_mul_posInf_of_neg (by
    linarith [mul_pos (mul_pos h0 h0) h0])
  have hleading (x : ℝ) : (posInf - real x) / real (a0 * a0 * (a1 * a1) * (a1 - a0)) = negInf :=
    if_pos hfactor
  have hsecond (x : ℝ) : (negInf + real x) / real (a0 * a0 * (a1 * a1) * (a1 - a0)) = posInf :=
    if_pos hfactor
  have hdescent : real 3 * negInf * real (-f) = posInf := by
    have h3 : real 3 * negInf = negInf := (if_neg (by norm_num)).trans (if_pos (by norm_num))
    rw [h3]
    exact if_pos (by linarith)
  have hdiscriminant : posInf * posInf - posInf = undefined := rfl
  unfold cubic
  simp only [square_real, real_mul, real_sub, real_neg, hrest, hsquare, hcube, hleading,
    hsecond, hthree, hdescent, hdiscriminant]
  exact undefined_div

/-- The least point of the cubic is in the first two thirds of the last trial, where the merit there
is finite and the cubic is no parabola. Otherwise it is not defined. -/
theorem cubic_cases (hf : 0 < f) (h : Bracket f a0 a1 g1) (g0 : ℝ) :
    cubic (real f) (real (-f)) (real a0) (real g0) (real a1) g1 = undefined ∨
      ∃ a2 g, cubic (real f) (real (-f)) (real a0) (real g0) (real a1) g1 = real a2 ∧
        g1 = real g ∧ 0 < a2 ∧ 3 * a2 < 2 * a1 := by
  have hpos := h.pos
  have hhigh := h.high
  cases g1 with
  | real g =>
    have hlast := cubic_last hpos h.lt f g0 g
    rw [cubic_real hpos h.lt]
    generalize leading f a0 g0 a1 g = a at hlast ⊢
    generalize second f a0 g0 a1 g = b at hlast ⊢
    -- the slope at two thirds of the trial is positive, because the merit at the trial is high
    have hslope : f < 3 * a * (2 * a1 / 3 * (2 * a1 / 3)) + 2 * b * (2 * a1 / 3) := by
      have hproduct : 0 < (4 * (a * (a1 * a1) + b * a1) - 3 * f) * a1 := by
        rw [real_lt] at hhigh
        push_cast at hhigh
        linarith
      linarith [pos_of_mul_pos_left hproduct hpos.le]
    by_cases ha : a = 0
    · left
      have hb : 0 < b := by
        rw [ha] at hslope
        have hproduct : 0 < b * (2 * (2 * a1 / 3)) := by linarith
        exact pos_of_mul_pos_left hproduct (by positivity)
      rw [ha, mul_zero, zero_mul, add_zero, abs_mul_self, Real.sqrt_mul_self hb.le, neg_add_cancel]
      change (if (0 : ℝ) = 0 then infinityOf 0 else _) = undefined
      simp [infinityOf]
    · right
      obtain ⟨hdiscriminant, hroot, hbelow⟩ :=
        root_mem (mul_ne_zero three_ne_zero ha) hf (by positivity) hslope
      rw [abs_of_pos hdiscriminant, real_div (mul_ne_zero three_ne_zero ha)]
      exact ⟨_, g, rfl, rfl, hroot, by linarith⟩
  | posInf => exact .inl (cubic_infinite hf hpos h.lt g0)
  | negInf | undefined => exact hhigh.elim

end Trials

/-! ## Searches -/

/-- The least point of the parabola with value `f` and slope `-f` at zero through a merit at the
full step, which is zero if the merit is infinite. -/
noncomputable def vertex (f : ℝ) : Exact → ℝ
  | real g => f / (g + g)
  | _ => 0

/-- Neither the full step nor the least point of the parabola is low enough. -/
structure Refused (φ : Exact → Exact) (f : ℝ) : Prop where
  full : ¬Low f 1 (φ (real 1))
  parabola : ¬Low f (vertex f (φ (real 1))) (φ (real (vertex f (φ (real 1)))))

/-- The ways in which a search along the merit `φ` ends, with the merit `f` at zero. -/
inductive Found (φ : Exact → Exact) (f : ℝ) : Option Exact → Prop
  | full (low : Low f 1 (φ (real 1))) : Found φ f (some (real 1))
  | parabola {a : ℝ} (high : ¬Low f 1 (φ (real 1))) (vertex : a = vertex f (φ (real 1)))
    (low : Low f a (φ (real a))) : Found φ f (some (real a))
  | cubic {a g : ℝ} (finite : φ (real 1) = real g) (refused : Refused φ f) (pos : 0 < a)
    (lt_one : a < 1) (low : Low f a (φ (real a))) : Found φ f (some (real a))
  | nothing (refused : Refused φ f) : Found φ f none

theorem Found.exists_real {φ : Exact → Exact} {f : ℝ} {x : Exact} (h : Found φ f (some x)) :
    ∃ a, x = real a := by
  cases h with
  | full | parabola | cubic => exact ⟨_, rfl⟩

theorem Found.low {φ : Exact → Exact} {f a : ℝ} (h : Found φ f (some (real a))) :
    Low f a (φ (real a)) := by
  cases h with
  | full low | parabola _ _ low | cubic _ _ _ _ low => exact low

theorem Found.refused {φ : Exact → Exact} {f : ℝ} (h : Found φ f none) : Refused φ f := by
  cases h with
  | nothing refused => exact refused

section Searches

variable {ε S : Type} {phi : Merit ε Exact S} {φ : Exact → Exact} {I : S → Prop} {s : S}
  {f g0 a0 a1 least : ℝ} {g1 : Exact}

theorem parabola_eq {m : Exact} (hf : 0 < f) (hm : real 0 ≤ m) (high : ¬Low f 1 m) :
    parabola (real f) (real (-f)) (real 1) m = real (vertex f m) := by
  have htwo : (2.0 : Exact) = real 2 := by norm_num
  cases m with
  | real g =>
    have hg : 0 < g := by
      rw [Low, real_le] at high
      norm_num at high
      linarith
    have hdivisor : g - f - -f * 1 ≠ 0 := by
      rw [mul_one, sub_neg_eq_add, sub_add_cancel]
      exact hg.ne'
    rw [parabola, htwo, square_real, real_neg, real_mul, real_div two_ne_zero, real_sub, real_mul,
      real_sub, real_div hdivisor, vertex]
    congr 1
    rw [div_div, mul_one, mul_one, mul_one, neg_neg, sub_neg_eq_add, sub_add_cancel, two_mul]
  | posInf =>
    rw [parabola, htwo, square_real, real_neg, real_mul, real_div two_ne_zero]
    rfl
  | negInf | undefined => exact hm.elim

/-- The parabola has its least point within the step, if the full step is refused. -/
theorem vertex_mem {g : ℝ} (hf : 0 < f) (high : ¬Low f 1 (real g)) :
    0 < g + g ∧ 0 < vertex f (real g) ∧ vertex f (real g) < 1 := by
  have hg : f < g + g := by
    rw [Low, real_le] at high
    norm_num at high
    linarith
  exact ⟨hf.trans hg, div_pos hf (hf.trans hg), (div_lt_one (hf.trans hg)).2 hg⟩

/-- What the parabola hands on, if it is refused after the full step. -/
theorem bracket_vertex {g : ℝ} (hf : 0 < f) (high : ¬Low f 1 (real g))
    (high' : real ((1 - 1e-4 * vertex f (real g)) * f) < g1) :
    Bracket f 1 (vertex f (real g)) g1 := by
  obtain ⟨-, hpos, hlt⟩ := vertex_mem hf high
  refine ⟨hpos, hlt, lt_of_real_lt ?_ high'⟩
  push_cast
  linarith [mul_pos hf hpos]

/-- An undefined last trial ends the search. -/
theorem backtrack_undefined (f0 d0 a0 g0 g1 : Exact) (fuel : Nat) :
    backtrack phi f0 d0 (real least) fuel a0 g0 undefined g1 = pure none := by
  cases fuel with
  | zero => rfl
  | succ fuel => rw [backtrack, if_neg not_lt_undefined]

/-- Along a merit that is not finite at zero no trial is low enough. -/
theorem not_accepts_not_real {f0 a : Exact} (hf : f0 = posInf ∨ f0 = undefined)
    (ha : a = real 1 ∨ a = undefined) (m : Exact) : accepts f0 (-f0) a m = false := by
  have hbound : f0 + sufficient * a * -f0 = undefined := by
    rcases hf with rfl | rfl
    · rcases ha with rfl | rfl
      · have hslope : sufficient * real 1 * -posInf = negInf := by
          rw [sufficient, ofScientific_eq, real_mul]
          exact (if_neg (by norm_num)).trans (if_pos (by norm_num))
        rw [hslope]
        rfl
      · rfl
    · rfl
  rw [accepts, hbound, decide_eq_false_iff_not]
  exact not_le_undefined

theorem parabola_not_real {f0 : Exact} (hf : f0 = posInf ∨ f0 = undefined) (m : Exact) :
    parabola f0 (-f0) (real 1) m = undefined := by
  have hdivisor : m - f0 - -f0 * real 1 = undefined := by
    rcases hf with rfl | rfl
    · have hslope : -posInf * real 1 = negInf :=
        (if_neg (by norm_num)).trans (if_pos (by norm_num))
      rw [hslope]
      cases m <;> rfl
    · cases m <;> rfl
  rw [parabola, hdivisor, div_undefined]

/-- A search along a merit that is not finite at zero finds nothing. -/
theorem search_not_real {f0 : Exact} (hf : f0 = posInf ∨ f0 = undefined)
    (hphi : ∀ a t, I t → (phi a).Ends t (fun m t' => m = φ a ∧ I t') fun _ _ => False)
    (hfirst : (phi (real 1)).Ends s (fun m t => m = φ (real 1) ∧ I t) fun _ _ => False) :
    (search phi f0 (-f0) (real least)).Ends s (fun x t => x = none ∧ I t) (fun _ _ => False) := by
  have hone : (1.0 : Exact) = real 1 := by norm_num
  rw [search, hone, ends_bind]
  refine hfirst.mono (fun m t hm => ?_) (fun _ _ he => he)
  rw [not_accepts_not_real hf (.inl rfl), if_neg Bool.false_ne_true, parabola_not_real hf,
    ends_bind]
  refine (hphi _ t hm.2).mono (fun m u hm => ?_) (fun _ _ he => he)
  rw [not_accepts_not_real hf (.inr rfl), if_neg Bool.false_ne_true, backtrack_undefined]
  exact ⟨rfl, hm.2⟩

/-- One is no larger than the least part after so many halvings. -/
theorem one_le_halvings (hleast : 0 < least) : 1 ≤ least * 2 ^ Scalar.halvings (real least) := by
  have hpower : 1 / least ≤ 2 ^ ⌈Real.logb 2 (1 / least)⌉₊ := by
    rw [← Real.rpow_natCast, ← Real.logb_le_iff_le_rpow one_lt_two (one_div_pos.2 hleast)]
    exact Nat.le_ceil _
  exact (div_le_iff₀' hleast).1 hpower

section Finite

variable (hphi : ∀ a t, I t → (phi a).Ends t (fun m t' => m = φ a ∧ I t') fun _ _ => False)
  (hφ : ∀ a, real 0 ≤ φ a) (hf : 0 < f)

include hphi hφ hf

/-- The trials after the parabola. -/
theorem backtrack_found {g : ℝ} (finite : φ (real 1) = real g) (refused : Refused φ f)
    (fuel : Nat) (h : Bracket f a0 a1 g1) (hone : a0 ≤ 1) (hs : I s) :
    (backtrack phi (real f) (real (-f)) (real least) fuel (real a0) (real g0) (real a1) g1).Ends s
      (fun x t => Found φ f x ∧ I t) (fun _ _ => False) := by
  induction fuel generalizing s a0 g0 a1 g1 with
  | zero => exact ⟨.nothing refused, hs⟩
  | succ fuel ih =>
    have htwo : (2.0 : Exact) = real 2 := by norm_num
    rw [backtrack]
    split
    -- a refused trial is cut to a half, but its merit is kept
    · rw [ends_bind]
      refine (hphi _ s hs).mono (fun m t hm => ?_) (fun _ _ he => he)
      obtain ⟨rfl, ht⟩ := hm
      rcases cubic_cases hf h g0 with hcubic | ⟨a2, g2, hcubic, rfl, hpos, hbelow⟩
      · rw [hcubic, not_accepts_undefined, not_outside_undefined, if_neg Bool.false_ne_true,
          if_neg Bool.false_ne_true, backtrack_undefined]
        exact ⟨.nothing refused, ht⟩
      · have hlt : a2 < 1 := by linarith [h.pos, h.lt]
        rw [hcubic, outside_real h.pos, if_pos rfl, htwo, real_div two_ne_zero]
        split
        next haccepted =>
          exact ⟨.cubic finite refused hpos hlt ((accepts_iff f a2 _).1 haccepted), ht⟩
        next hrefused =>
          have hhigh := lt_of_not_le (hφ _) (mt (accepts_iff f a2 _).2 hrefused)
          exact ih (h.halve hf hbelow hhigh) (h.lt.le.trans hone) ht
    · exact ⟨.nothing refused, hs⟩

/-- The fuel of a search does not end it: every trial is at most half of the one before, so with
enough halvings down to the least part more of them change nothing. -/
theorem backtrack_fuel (fuel more : Nat) (hfuel : a1 ≤ least * 2 ^ fuel) (h : Bracket f a0 a1 g1)
    (hs : I s) :
    (backtrack phi (real f) (real (-f)) (real least) (fuel + more) (real a0) (real g0) (real a1)
        g1).eval s =
      (backtrack phi (real f) (real (-f)) (real least) fuel (real a0) (real g0) (real a1)
        g1).eval s := by
  induction fuel generalizing s a0 g0 a1 g1 with
  | zero =>
    have hended : ¬real least < real a1 := not_lt.2 (by simpa using hfuel)
    cases more with
    | zero => rfl
    | succ more => rw [Nat.zero_add, backtrack, backtrack, if_neg hended]
  | succ fuel ih =>
    have htwo : (2.0 : Exact) = real 2 := by norm_num
    rw [Nat.succ_add, backtrack, backtrack]
    split
    · obtain ⟨m, t, heval, rfl, ht⟩ :=
        (hphi (cubic (real f) (real (-f)) (real a0) (real g0) (real a1) g1) s hs).exists_ok
      simp only [eval_bind, heval]
      rcases cubic_cases hf h g0 with hcubic | ⟨a2, g2, hcubic, rfl, hpos, hbelow⟩
      · rw [hcubic, not_outside_undefined, if_neg Bool.false_ne_true, backtrack_undefined,
          backtrack_undefined]
      · rw [hcubic, outside_real h.pos, if_pos rfl, htwo, real_div two_ne_zero]
        split
        · rfl
        next hrefused =>
          have hhigh := lt_of_not_le (hφ _) (mt (accepts_iff f a2 _).2 hrefused)
          have hhalf : a1 / 2 ≤ least * 2 ^ fuel := by
            rw [pow_succ] at hfuel
            linarith
          exact ih hhalf (h.halve hf hbelow hhigh) ht
    · rfl

/-- So it is for the fuel of a search, which starts with a trial within the step. -/
theorem backtrack_halvings (hleast : 0 < least) (more : Nat) (h : Bracket f 1 a1 g1) (hs : I s) :
    (backtrack phi (real f) (real (-f)) (real least) (Scalar.halvings (real least) + 1 + more)
        (real 1) (real g0) (real a1) g1).eval s =
      (backtrack phi (real f) (real (-f)) (real least) (Scalar.halvings (real least) + 1)
        (real 1) (real g0) (real a1) g1).eval s := by
  refine backtrack_fuel hphi hφ hf _ more ?_ h hs
  rw [pow_succ]
  linarith [one_le_halvings hleast, h.lt]

/-- So ends a search along a merit that is finite and not zero at zero, from a state in which the
merit of the full step is not known yet. -/
theorem search_found (hleast : 0 < least)
    (hfirst : (phi (real 1)).Ends s (fun m t => m = φ (real 1) ∧ I t) fun _ _ => False) :
    (search phi (real f) (real (-f)) (real least)).Ends s (fun x t => Found φ f x ∧ I t)
      (fun _ _ => False) := by
  have hone : (1.0 : Exact) = real 1 := by norm_num
  rw [search, hone, ends_bind]
  refine hfirst.mono (fun m t hm => ?_) (fun _ _ he => he)
  obtain ⟨rfl, ht⟩ := hm
  split
  next haccepted => exact ⟨.full ((accepts_iff f 1 _).1 haccepted), ht⟩
  next hrefused =>
    have high : ¬Low f 1 (φ (real 1)) := mt (accepts_iff f 1 _).2 hrefused
    rw [parabola_eq hf (hφ _) high, ends_bind]
    refine (hphi _ t ht).mono (fun m u hm => ?_) (fun _ _ he => he)
    obtain ⟨rfl, hu⟩ := hm
    split
    next haccepted => exact ⟨.parabola high rfl ((accepts_iff f _ _).1 haccepted), hu⟩
    next hrefused' =>
      have refused : Refused φ f := ⟨high, mt (accepts_iff f _ _).2 hrefused'⟩
      have hhigh := lt_of_not_le (hφ _) refused.parabola
      have hpositive := hφ (real 1)
      cases hfinite : φ (real 1) with
      | real g =>
        rw [hfinite] at high hhigh
        exact backtrack_found hphi hφ hf hfinite refused _ (bracket_vertex hf high hhigh) le_rfl hu
      | posInf =>
        have hzero : ¬real least < real (vertex f posInf) := not_lt.2 hleast.le
        rw [backtrack, if_neg hzero]
        exact ⟨.nothing refused, hu⟩
      | negInf | undefined =>
        rw [hfinite] at hpositive
        exact hpositive.elim

end Finite

end Searches

end Armijo

end RootFinding
