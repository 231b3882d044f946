import RootFinding.Proofs.Costs
import RootFinding.Proofs.ExactParts
import RootFinding.Proofs.Merit
import RootFinding.Proofs.StepSize
import RootFinding.Proofs.StoredErrors

/-!
# The search of a spectral residual step

A search tries a part of the step ahead of the iterate and a part behind it, in rounds, and reduces
both parts after each round by factors of their own. So a trial and the part that it is judged by
have to be kept together, and the parts of a round are between two powers of its number.

* `SpectralResidual.Accepted`: the settings of a search as real numbers.
* `SpectralResidual.reduce_real`: a part is reduced within its bounds, also where the interpolation
  gives zero or infinity.
* `SpectralResidual.Chosen`: what is known of a trial that a search has accepted.
* `SpectralResidual.Exhausted`: a search has used up its rounds, with two evaluations in each.
* `SpectralResidual.Settled`, `SpectralResidual.Interrupted`: how a step comes to its check, and the
  errors of the caller's that it passes on.
* `SpectralResidual.Ready`: what holds of a run between its steps.
* `SpectralResidual.step_settles`: the ways a step ends before its check.
-/

namespace RootFinding

open Action Exact

/-! ## Numbers that are cut to a range -/

/-- What is cut to a range of real numbers is in it, unless it is undefined. -/
theorem Exact.clamp_between {x : Exact} {lo hi : ℝ} (hx : x ≠ undefined) (hle : lo ≤ hi) :
    ∃ y, lo ≤ y ∧ y ≤ hi ∧ Scalar.clamp x (real lo) (real hi) = real y := by
  cases x with
  | real z =>
    exact ⟨_, le_min (le_max_right z lo) hle, min_le_right _ hi, StepController.clamp_real z lo hi⟩
  | posInf =>
    have hhigh : Scalar.greatest posInf (real lo) = posInf := if_neg not_posInf_lt
    refine ⟨hi, hle, le_rfl, ?_⟩
    rw [Scalar.clamp, hhigh]
    exact if_pos trivial
  | negInf =>
    have hlow : Scalar.greatest negInf (real lo) = real lo := if_pos trivial
    refine ⟨lo, le_rfl, hle, ?_⟩
    rw [Scalar.clamp, hlow, StepController.least_real, min_eq_left hle]
  | undefined => exact (hx rfl).elim

/-! ## Evaluations -/

namespace Problem

variable {σ R K : Type} [Scalar R] [Entry R K]

/-- The residual is called once at a vector of the right size, whether it answers or raises. -/
theorem evaluate_calls (p : Problem σ R K) {u : Vec K}
    (hu : u.size = Tensor.sizeOf p.guess.shape) (w : Workspace σ R K) :
    (p.evaluate u).Ends w (fun _ w' => w'.evaluations = w.evaluations + 1)
      (fun _ w' => w'.evaluations = w.evaluations + 1) := by
  have hx : p.restructure u = .ok ⟨p.guess.shape, u⟩ := if_pos hu
  simp only [evaluate, hx, ends_bind, ends_ofFault, Except.ok.injEq, ends_modify, ends_mapError]
  refine ⟨fun x hx => ?_, fun _ h => by cases h⟩
  have hcall {α : Type} (f : Callable σ R K α (Tensor K)) (y : α) :
      Keeps Workspace.evaluations (Workspace.call f y) := fun _ => rfl
  cases p.residual with
  | returning f =>
    exact ((hcall f x).ends _).mono (fun _ _ h => by rw [ends_pure, h]) (fun _ _ h => h)
  | filling f => exact ((hcall f _).ends _).mono (fun _ _ h => h) (fun _ _ h => h)

end Problem

/-- The size of a vector that is reached along another one. -/
theorem Vec.size_along {R K : Type} [Scalar R] [Entry R K] {u d : Vec K} {n : Nat}
    (hu : u.size = n) (hd : d.size = n) (x : R) :
    (u + x • d).size = n ∧ (u - x • d).size = n := by
  have hu' : u.Fits (fun _ => True) n := ⟨hu, fun _ _ => trivial⟩
  have hd' : d.Fits (fun _ => True) n := ⟨hd, fun _ _ => trivial⟩
  have hx := hd'.smul Entry.closed_true x
  exact ⟨(hu'.add Entry.closed_true hx).size, (hu'.sub Entry.closed_true hx).size⟩

namespace SpectralResidual

/-! ## Settings -/

section Settings

variable {σ K : Type} {a : SpectralResidual σ Exact K} {lo hi : ℝ}

/-- The settings of a search as real numbers. -/
structure Accepted (a : SpectralResidual σ Exact K) (lo hi : ℝ) : Prop where
  reduceMost : a.reduceMost = real lo
  reduceLeast : a.reduceLeast = real hi
  pos : 0 < lo
  le : lo ≤ hi
  lt_one : hi < 1
  memory : 1 ≤ a.memory
  innerLimit : 1 ≤ a.innerLimit

theorem accepted (h : a.refusal? = none) : ∃ lo hi, a.Accepted lo hi := by
  unfold refusal? at h
  split at h
  · cases h
  split at h
  · cases h
  next hmemory =>
    split at h
    · cases h
    next hbounds =>
      split at h
      · cases h
      next hlimit =>
        simp only [ofScientific_eq, not_not, decide_eq_false_iff_not, Bool.not_eq_eq_eq_not,
          Bool.not_true] at hbounds
        obtain ⟨hpos, hle, hlt⟩ := hbounds
        norm_num at hpos hlt
        obtain ⟨hi, -, hhi⟩ := exists_real_of_le_of_lt (Exact.le_trans (le_of_lt hpos) hle) hlt
        rw [hhi] at hle hlt
        obtain ⟨lo, hlo, hlohi, heq⟩ := exists_real_of_lt_of_le hpos hle
        exact ⟨lo, hi, heq, hhi, hlo, hlohi, hlt, not_lt.1 hmemory, not_lt.1 hlimit⟩

theorem Accepted.hi_pos (ha : a.Accepted lo hi) : 0 < hi := ha.pos.trans_le ha.le

end Settings

/-! ## Parts of a step -/

section Parts

variable {σ K : Type} {a : SpectralResidual σ Exact K} {lo hi : ℝ} {q : Search Exact K}

/-- The interpolation never answers the undefined number. -/
theorem interpolate_defined (alpha old : ℝ) {merit : Exact} (hmerit : merit ≠ undefined) :
    ∃ x, x ≠ undefined ∧ interpolate (real alpha) merit (real old) = .ok x := by
  have hshift : ((2.0 : Exact) * real alpha - 1.0) * real old = real ((2 * alpha - 1) * old) := by
    norm_num
  have hzero : (0.0 : Exact) = real 0 := by norm_num
  have hsquare : Checked.square (real alpha) = .ok (real (alpha * alpha)) := rfl
  unfold interpolate
  dsimp only
  rw [hshift, hzero, hsquare]
  split
  next hbottom =>
    refine ⟨_, ?_, rfl⟩
    cases merit with
    | real m =>
      rw [real_add, real_lt] at hbottom
      dsimp only
      rw [real_add, real_mul, real_div hbottom.ne']
      exact Exact.noConfusion
    | posInf => exact Exact.noConfusion
    | negInf | undefined => exact hbottom.elim
  · exact ⟨posInf, Exact.noConfusion, rfl⟩

/-- A part is reduced within its bounds, also where the interpolation gives zero or infinity. -/
theorem Accepted.reduce_real (ha : a.Accepted lo hi) {old alpha : ℝ} {merit : Exact}
    (hold : q.old = real old) (halpha : 0 < alpha) (hmerit : merit ≠ undefined) :
    ∃ next, lo * alpha ≤ next ∧ next ≤ hi * alpha ∧
      a.reduce q (real alpha) merit = .ok (real next) := by
  obtain ⟨x, hx, hinterpolate⟩ := interpolate_defined alpha old hmerit
  have hle : lo * alpha ≤ hi * alpha := by
    gcongr
    exact ha.le
  obtain ⟨next, hlow, hhigh, hclamp⟩ := clamp_between hx hle
  refine ⟨next, hlow, hhigh, ?_⟩
  rw [reduce, hold, hinterpolate, ha.reduceMost, ha.reduceLeast, real_mul, real_mul]
  exact congrArg Except.ok hclamp

/-- The parts that a search may have come to after some rounds. -/
def IsPart (lo hi : ℝ) (i : Nat) (part : ℝ) : Prop := lo ^ i ≤ part ∧ part ≤ hi ^ i

theorem Accepted.pos_of_isPart (ha : a.Accepted lo hi) {i : Nat} {part : ℝ}
    (h : IsPart lo hi i part) : 0 < part :=
  (pow_pos ha.pos i).trans_le h.1

theorem Accepted.isPart_next (ha : a.Accepted lo hi) {i : Nat} {part next : ℝ}
    (h : IsPart lo hi i part) (hlow : lo * part ≤ next) (hhigh : next ≤ hi * part) :
    IsPart lo hi (i + 1) next := by
  constructor
  · calc lo ^ (i + 1) = lo * lo ^ i := pow_succ' lo i
      _ ≤ lo * part := mul_le_mul_of_nonneg_left h.1 ha.pos.le
      _ ≤ next := hlow
  · calc next ≤ hi * part := hhigh
      _ ≤ hi * hi ^ i := mul_le_mul_of_nonneg_left h.2 ha.hi_pos.le
      _ = hi ^ (i + 1) := (pow_succ' hi i).symm

end Parts

/-! ## The search -/

section Search

variable {σ K : Type} [Entry Exact K] {c : Setup σ Exact K} {a : SpectralResidual σ Exact K}
  {lo hi alpha beta old : ℝ} {q : Search Exact K} {t : Trial Exact K}
  {r : Run σ Exact K (State Exact)} {n : Nat}

/-- The failure of a search that has used up its rounds. -/
def exhausted (a : SpectralResidual σ Exact K) (spectral : Exact) : Failure Exact K where
  kind := .stall
  values := [.text s!"Line search did not satisfy the non-monotone condition in {
    a.innerLimit} iterations."]
  flag := some 1
  named := [("σ_n", .real spectral)]

/-- A trial with its part of the step that a search has accepted after `i` rounds. -/
structure Chosen (a : SpectralResidual σ Exact K) (c : Setup σ Exact K) (q : Search Exact K)
    (lo hi : ℝ) (i : Nat) (part : ℝ) (t : Trial Exact K) : Prop where
  stands : t.Stands a c
  isPart : IsPart lo hi i |part|
  accepted : t.merit ≤ q.limit - a.decrease * real (part * part) * q.old
  place : 0 < part ∧ t.u = q.u + real part • q.d ∨ part < 0 ∧ t.u = q.u - real (-part) • q.d

/-- A trial ahead of the iterate that a search has refused after `i` rounds. -/
def RefusedAhead (a : SpectralResidual σ Exact K) (c : Setup σ Exact K) (q : Search Exact K)
    (lo hi : ℝ) (i : Nat) : Prop :=
  ∃ part t, IsPart lo hi i part ∧ Trial.Stands a c t ∧ t.u = q.u + real part • q.d ∧
    ¬t.merit ≤ q.limit - a.decrease * real (part * part) * q.old

/-- A search from the run `r` has used up its rounds `i`, …, `n - 1`. -/
structure Exhausted (a : SpectralResidual σ Exact K) (c : Setup σ Exact K) (q : Search Exact K)
    (lo hi : ℝ) (i n : Nat) (r : Run σ Exact K (State Exact)) (e : Thrown Exact K)
    (s : Run σ Exact K (State Exact)) : Prop where
  error : e = .failure (a.exhausted r.ext.spectral)
  evaluations : s.work.evaluations + 2 * i = r.work.evaluations + 2 * n
  refused : ∀ j, i ≤ j → j < n → RefusedAhead a c q lo hi j

/-- A search that has used up its rounds from the next one on has used them up from this one on, if
it has refused the trial ahead. -/
theorem Exhausted.before {r₂ s : Run σ Exact K (State Exact)} {i : Nat} {e : Thrown Exact K}
    (h : Exhausted a c q lo hi (i + 1) n r₂ e s) (hkept : r₂.unworked = r.unworked)
    (hcalls : r₂.work.evaluations = r.work.evaluations + 2)
    (hrefused : RefusedAhead a c q lo hi i) : Exhausted a c q lo hi i n r e s where
  error := by rw [h.error, Run.eq_of_unworked hkept]
  evaluations := by
    have hcount := h.evaluations
    omega
  refused j hj hlt := by
    rcases Nat.eq_or_lt_of_le hj with rfl | hj
    · exact hrefused
    · exact h.refused j hj hlt

/-- The residual raises an error at a trial of a search. -/
def Search.Raises (c : Setup σ Exact K) (q : Search Exact K) (e : Thrown Exact K) : Prop :=
  ∃ u w w', u.size = Tensor.sizeOf c.problem.guess.shape ∧
    (∃ part, u = q.u + real part • q.d ∨ u = q.u - real part • q.d) ∧
    (c.problem.evaluate u).eval w = (.error e, w')

/-- A trial calls the residual once, at a part of the step ahead or behind. -/
theorem trialAt_calls (a : SpectralResidual σ Exact K) {u : Vec K}
    (hu : u.size = Tensor.sizeOf c.problem.guess.shape) {part : ℝ}
    (hplace : u = q.u + real part • q.d ∨ u = q.u - real part • q.d)
    (r : Run σ Exact K (State Exact)) :
    (a.trialAt c u).Ends r
      (fun t s => (t.Stands a c ∧ t.u = u) ∧ s.unworked = r.unworked ∧
        s.work.evaluations = r.work.evaluations + 1)
      (fun e s => q.Raises c e ∧ s.unworked = r.unworked) := by
  simp only [trialAt, ends_bind, Run.ends_evaluate, ends_pure]
  have hcalls := c.problem.evaluate_calls hu r.work
  refine ends_iff.2
    ⟨fun fu w h => ?_, fun e w h => ⟨⟨u, r.work, w, hu, ⟨part, hplace⟩, h⟩, rfl⟩⟩
  exact ⟨⟨⟨⟨r.work, w, h⟩, rfl⟩, trivial⟩, rfl, hcalls.ok h⟩

omit [Entry Exact K] in
theorem accepts_iff {merit : Exact} :
    q.accepts a.decrease (real alpha) merit = true ↔
      merit ≤ q.limit - a.decrease * real (alpha * alpha) * q.old :=
  decide_eq_true_iff

theorem Trial.Stands.merit_defined (ht : t.Stands a c) : t.merit ≠ undefined := by
  rw [ht.merit]
  exact SpectralResidual.merit_defined _ _

/-- A search that has come to the round `i`, where the parts to try are `alpha` ahead and `beta`
behind, accepts a trial in one of its rounds, or the residual raises an error, or it uses up its
rounds. The run is left as it was. -/
theorem Accepted.search_settles (ha : a.Accepted lo hi) (hold : q.old = real old)
    (hu : q.u.size = Tensor.sizeOf c.problem.guess.shape)
    (hd : q.d.size = Tensor.sizeOf c.problem.guess.shape) (fuel : Nat) {i : Nat}
    (halpha : IsPart lo hi i alpha) (hbeta : IsPart lo hi i beta) (ht : t.Stands a c)
    (hplace : t.u = q.u + real alpha • q.d) (r : Run σ Exact K (State Exact)) :
    (a.search c q fuel (real alpha) (real beta) t).Ends r
      (fun x s => s.unworked = r.unworked ∧ ∃ j part, j < i + fuel ∧ x.2 = real part ∧
        Chosen a c q lo hi j part x.1)
      (fun e s => s.unworked = r.unworked ∧
        (q.Raises c e ∨ Exhausted a c q lo hi i (i + fuel) r e s)) := by
  induction fuel generalizing i alpha beta t r with
  | zero =>
    simp only [search, ends_bind, ends_get, ends_fail]
    exact ⟨trivial, .inr ⟨rfl, rfl, fun j hj hlt => absurd hj (by omega)⟩⟩
  | succ fuel ih =>
    have hahead : 0 < alpha := ha.pos_of_isPart halpha
    have hbehind : 0 < beta := ha.pos_of_isPart hbeta
    obtain ⟨nextAhead, hlow, hhigh, hreduce⟩ := ha.reduce_real hold hahead ht.merit_defined
    unfold search
    split
    next haccepts =>
      refine ⟨rfl, i, alpha, by omega, rfl, ht, ?_, accepts_iff.1 haccepts, .inl ⟨hahead, hplace⟩⟩
      rw [abs_of_pos hahead]
      exact halpha
    next hrefused =>
      rw [ends_bind, ends_ofFault_ok hreduce, ends_bind]
      refine (a.trialAt_calls (Vec.size_along hu hd _).2 (.inr rfl) r).mono (fun t₁ r₁ h₁ => ?_)
        (fun e s h => ⟨h.2, .inl h.1⟩)
      obtain ⟨⟨ht₁, hplace₁⟩, hr₁, hcalls₁⟩ := h₁
      obtain ⟨nextBehind, hlow', hhigh', hreduce'⟩ := ha.reduce_real hold hbehind ht₁.merit_defined
      split
      next haccepts =>
        have hsquare : -beta * -beta = beta * beta := neg_mul_neg beta beta
        refine ⟨hr₁, i, -beta, by omega, rfl, ht₁, ?_, ?_, .inr ⟨neg_neg_of_pos hbehind, ?_⟩⟩
        · rw [abs_neg, abs_of_pos hbehind]
          exact hbeta
        · rw [hsquare]
          exact accepts_iff.1 haccepts
        · rw [neg_neg]
          exact hplace₁
      next =>
        rw [ends_bind, ends_ofFault_ok hreduce', ends_bind]
        refine (a.trialAt_calls (Vec.size_along hu hd _).1 (.inl rfl) r₁).mono (fun t₂ r₂ h₂ => ?_)
          (fun e s h => ⟨h.2.trans hr₁, .inl h.1⟩)
        obtain ⟨⟨ht₂, hplace₂⟩, hr₂, hcalls₂⟩ := h₂
        have hr₂' : r₂.unworked = r.unworked := hr₂.trans hr₁
        have hnext := ih (ha.isPart_next halpha hlow hhigh) (ha.isPart_next hbeta hlow' hhigh')
          ht₂ hplace₂ r₂
        rw [Nat.add_right_comm, Nat.add_assoc i fuel 1] at hnext
        refine hnext.mono (fun x s h => ?_) (fun e s h => ?_)
        · obtain ⟨hs, hchosen⟩ := h
          exact ⟨hs.trans hr₂', hchosen⟩
        · obtain ⟨hs, hraises | hexhausted⟩ := h
          · exact ⟨hs.trans hr₂', .inl hraises⟩
          · have hahead : RefusedAhead a c q lo hi i :=
              ⟨alpha, t, halpha, ht, hplace, mt accepts_iff.2 hrefused⟩
            exact ⟨hs.trans hr₂', .inr (hexhausted.before hr₂' (by omega) hahead)⟩

end Search

/-! ## A step up to its check -/

section Approach

variable {σ R K : Type} [Scalar R] [Entry R K] {c : Setup σ R K}

/-- The run `s` after a step from `r` has moved to a trial with its part of the step. -/
def landed (a : SpectralResidual σ R K) (r : Run σ R K (State R)) (x : Trial R K × R)
    (s : Run σ R K (State R)) : Run σ R K (State R) :=
  { s with
    u := x.1.u
    fu := x.1.fu
    previous := r.u
    du := (-r.ext.spectral) • r.fu
    alpha := x.2
    ext :=
      { first := s.ext.first
        spectral := a.nextSpectral r.u r.fu x.1
        history := s.ext.history.set (r.steps % a.memory.toNat) x.1.merit } }

theorem ends_approach {a : SpectralResidual σ R K} {r : Run σ R K (State R)}
    {Q : Unit → Run σ R K (State R) → Prop} {E : Thrown R K → Run σ R K (State R) → Prop} :
    (a.approach c).Ends r Q E ↔
      (a.toleranceAt (context r)).Ends r
        (fun η r₁ => (a.trialAt c (r.u + (1.0 : R) • (searchFrom a c r η).d)).Ends r₁
          (fun t r₂ =>
            (a.search c (searchFrom a c r η) a.innerLimit.toNat 1.0 1.0 t).Ends r₂
              (fun x s => Q () (a.landed r x s)) E) E) E := by
  simp only [approach, ends_bind, ends_get]
  exact Iff.rfl

/-- Before its check a step moves to a trial and keeps its merit, or it fails and leaves all but the
workspace as it was. -/
theorem approach_lands (a : SpectralResidual σ R K) (r : Run σ R K (State R)) :
    (a.approach c).Ends r
      (fun _ t => ∃ x s, x.1.Stands a c ∧ s.unworked = r.unworked ∧ t = a.landed r x s)
      (fun _ t => t.unworked = r.unworked) := by
  refine ends_approach.2 (((a.toleranceAt_keeps _).ends r).mono (fun η r₁ h₁ => ?_)
    (fun _ _ h => h))
  refine (a.trialAt_ends _ r₁).mono (fun t r₂ h₂ => ?_) (fun _ _ h => h.trans h₁)
  have hr₂ : r₂.unworked = r.unworked := h₂.2.trans h₁
  exact (a.search_ends _ _ _ _ h₂.1 r₂).mono
    (fun x s h => ⟨x, s, h.1.1, h.2.trans hr₂, rfl⟩) (fun _ _ h => h.trans hr₂)

end Approach

section Steps

variable {σ K : Type} [Entry Exact K] {c : Setup σ Exact K} {a : SpectralResidual σ Exact K}
  {lo hi : ℝ} {r r₀ t : Run σ Exact K (State Exact)}

/-- An error of the caller's that a step from `r` has passed on: of the rule for the tolerance, or
of the residual. -/
inductive Interrupted (a : SpectralResidual σ Exact K) (c : Setup σ Exact K)
    (r : Run σ Exact K (State Exact)) (e : Thrown Exact K) : Prop
  | tolerance (rule : ToleranceRule σ Exact K) (w : σ) (given : a.tolerance = some rule)
    (raised : rule (context r) r.work.world = (.error e, w))
  | residual (η : Exact) (raised : (searchFrom a c r η).Raises c e)

omit [Entry Exact K] in
/-- The rule for the tolerance does not call the residual. -/
theorem toleranceAt_calls (r : Run σ Exact K (State Exact)) :
    (a.toleranceAt (context r)).Ends r
      (fun η s => (∃ w, (a.toleranceAt (context r)).eval r = (.ok η, w)) ∧
        s.unworked = r.unworked ∧ s.work.evaluations = r.work.evaluations)
      (fun e s => (∃ rule w, a.tolerance = some rule ∧
        rule (context r) r.work.world = (.error e, w)) ∧ s.unworked = r.unworked) := by
  have hkeeps := (a.toleranceAt_keeps (context r)).ends r
  have hcalls : (a.toleranceAt (context r)).Ends r
      (fun _ s => s.work.evaluations = r.work.evaluations)
      (fun e _ => ∃ rule w, a.tolerance = some rule ∧
        rule (context r) r.work.world = (.error e, w)) := by
    unfold toleranceAt
    cases a.tolerance with
    | none => exact rfl
    | some rule =>
      refine Run.ends_onWork.2 (ends_ofFun.2 ⟨fun η w h => ?_, fun e w h => ?_⟩)
      · rw [← (Prod.mk.inj h).2]
      · exact ⟨rule, _, rfl, Prod.ext (Prod.mk.inj h).1 rfl⟩
  exact ends_iff.2 ⟨fun η s h => ⟨⟨s, h⟩, hkeeps.ok h, hcalls.ok h⟩,
    fun e s h => ⟨hcalls.error h, hkeeps.error h⟩⟩

/-- Where the rule for the tolerance and the residual answer, nothing is passed on. -/
theorem not_interrupted {η : Exact} {e : Thrown Exact K}
    (hanswers : ∀ u w, u.size = Tensor.sizeOf c.problem.guess.shape →
      ∃ fu, ((c.problem.evaluate u).eval w).1 = .ok fu)
    (hη : (a.toleranceAt (context r)).eval r = (.ok η, t)) : ¬Interrupted a c r e := fun h => by
  cases h with
  | tolerance rule w given raised =>
    have hraises : (a.toleranceAt (context r)).Ends r (fun _ _ => False) (fun _ _ => True) := by
      unfold toleranceAt
      rw [given]
      refine Run.ends_onWork.2 (ends_ofFun.2 ⟨fun y w h => ?_, fun _ _ _ => trivial⟩)
      rw [raised] at h
      cases h
    exact hraises.ok hη
  | residual η raised =>
    obtain ⟨u, w, w', hu, -, hraised⟩ := raised
    obtain ⟨fu, hanswer⟩ := hanswers u w hu
    rw [hraised] at hanswer
    cases hanswer

/-- What holds of a run between its steps: the sizes are those of the problem, and the merits that
are kept are numbers. -/
structure Ready (c : Setup σ Exact K) (r : Run σ Exact K (State Exact)) : Prop where
  u : r.u.size = Tensor.sizeOf c.problem.guess.shape
  fu : r.fu.size = Tensor.sizeOf c.problem.guess.shape
  history : r.ext.history ≠ []
  defined : ∀ m ∈ r.ext.history, m ≠ undefined

/-- How a step from `r` comes to its check: after `i` rounds it has accepted a trial at a part of
the step, and has moved there. -/
structure Settled (a : SpectralResidual σ Exact K) (c : Setup σ Exact K)
    (r : Run σ Exact K (State Exact)) (lo hi : ℝ) (η : Exact) (i : Nat) (part : ℝ)
    (t : Run σ Exact K (State Exact)) : Prop where
  tolerance : ∃ w, (a.toleranceAt (context r)).eval r = (.ok η, w)
  round : i < a.innerLimit.toNat
  chosen : Chosen a c (searchFrom a c r η) lo hi i part ⟨t.u, t.fu, a.meritOf c t.fu⟩
  alpha : t.alpha = real part

/-- A step from a run with a finite merit comes to its check, or passes on an error of the caller's,
or fails as stalled after it has used up its rounds. In the last two cases it leaves all but the
workspace as it was. -/
theorem Accepted.approach_settles (ha : a.Accepted lo hi) (hr : Ready c r) {old : ℝ}
    (hold : a.meritOf c r.fu = real old) :
    (a.approach c).Ends r (fun _ t => ∃ η i part, Settled a c r lo hi η i part t)
      (fun e t => t.unworked = r.unworked ∧ (Interrupted a c r e ∨
        e = .failure (a.exhausted r.ext.spectral) ∧
          t.work.evaluations = r.work.evaluations + (1 + 2 * a.innerLimit.toNat) ∧
          ∃ η, (∃ w, (a.toleranceAt (context r)).eval r = (.ok η, w)) ∧
            ∀ i < a.innerLimit.toNat, RefusedAhead a c (searchFrom a c r η) lo hi i)) := by
  have hone : (1.0 : Exact) = real 1 := by norm_num
  have hfirst : IsPart lo hi 0 1 := ⟨(pow_zero lo).le, (pow_zero hi).ge⟩
  refine ends_approach.2 ((toleranceAt_calls r).mono (fun η r₁ h₁ => ?_) (fun e s h => ?_))
  · obtain ⟨htolerance, hr₁, hcalls₁⟩ := h₁
    have hd : (searchFrom a c r η).d.size = Tensor.sizeOf c.problem.guess.shape :=
      (List.length_map _).trans hr.fu
    rw [hone]
    have htrial := a.trialAt_calls (q := searchFrom a c r η)
      (Vec.size_along hr.u hd (real 1)).1 (.inl rfl) r₁
    refine htrial.mono (fun x r₂ h₂ => ?_)
      (fun e s h => ⟨h.2.trans hr₁, .inl (.residual η h.1)⟩)
    obtain ⟨⟨hx, hplace⟩, hr₂, hcalls₂⟩ := h₂
    have hr₂' : r₂.unworked = r.unworked := hr₂.trans hr₁
    refine (ha.search_settles hold hr.u hd _ hfirst hfirst hx hplace r₂).mono
      (fun y s h => ?_) (fun e s h => ?_)
    · obtain ⟨-, i, part, hround, hpart, hchosen⟩ := h
      refine ⟨η, i, part, htolerance, by omega, ?_, hpart⟩
      have hmerit : y.1.merit = a.meritOf c y.1.fu := hchosen.stands.merit
      have hy : (⟨y.1.u, y.1.fu, a.meritOf c y.1.fu⟩ : Trial Exact K) = y.1 := by rw [← hmerit]
      exact (congrArg (Chosen a c _ lo hi i part) hy).mpr hchosen
    · obtain ⟨hs, hraises | hexhausted⟩ := h
      · exact ⟨hs.trans hr₂', .inl (.residual η hraises)⟩
      · refine ⟨hs.trans hr₂', .inr ⟨?_, ?_, η, htolerance, fun i hi => ?_⟩⟩
        · rw [hexhausted.error, Run.eq_of_unworked hr₂']
        · have hcount := hexhausted.evaluations
          omega
        · exact hexhausted.refused i (Nat.zero_le i) (by omega)
  · obtain ⟨⟨rule, w, hgiven, hraised⟩, hs⟩ := h
    exact ⟨hs, .inl (.tolerance rule w hgiven hraised)⟩

/-! ## Runs -/

omit [Entry Exact K] in
theorem Ready.of_eq (hr : Ready c r) (hu : t.u = r.u) (hfu : t.fu = r.fu) (hext : t.ext = r.ext) :
    Ready c t :=
  ⟨by rw [hu]; exact hr.u, by rw [hfu]; exact hr.fu, by rw [hext]; exact hr.history,
    by rw [hext]; exact hr.defined⟩

/-- At an iterate with its residual, with a merit kept or not. -/
theorem Ready.move (hsquare : ∀ u fu, c.problem.Answered u fu → fu.size = u.size) (hr : Ready c r)
    (hanswered : c.problem.Answered t.u t.fu)
    (hext : t.ext.history = r.ext.history ∨
      ∃ i m, m ≠ undefined ∧ t.ext.history = r.ext.history.set i m) : Ready c t := by
  have hu := hanswered.size_eq
  refine ⟨hu, (hsquare _ _ hanswered).trans hu, ?_, fun m hm => ?_⟩
  · rcases hext with hsame | ⟨i, m, -, hset⟩
    · rw [hsame]
      exact hr.history
    · rw [hset]
      exact fun h => hr.history ((List.set_eq_nil_iff _ _).1 h)
  · rcases hext with hsame | ⟨i, m', hm', hset⟩
    · rw [hsame] at hm
      exact hr.defined m hm
    · rw [hset] at hm
      rcases List.mem_or_eq_of_mem_set hm with hold | rfl
      · exact hr.defined m hold
      · exact hm'

theorem Ready.step (hsquare : ∀ u fu, c.problem.Answered u fu → fu.size = u.size)
    (hr : Ready c r) :
    (a.step c).Ends r (fun _ t => Ready c t) (fun _ t => Ready c t) := by
  rw [step_parts]
  refine (a.approach_lands r).bind (fun _ t ht => ?_) (fun _ t ht => ?_)
  · obtain ⟨x, s, hx, hs, rfl⟩ := ht
    have hext : s.ext = r.ext := congrArg (·.ext) (Run.eq_of_unworked hs)
    have hlanded : Ready c (a.landed r x s) := by
      have hhistory : (a.landed r x s).ext.history =
          r.ext.history.set (r.steps % a.memory.toNat) x.1.merit := by rw [← hext]; rfl
      exact hr.move hsquare hx.answered (.inr ⟨_, _, hx.merit_defined, hhistory⟩)
    refine (Run.check_frame _).bind (fun _ t ht => ?_) (fun _ t ht => ?_)
    · obtain ⟨checker, code, stopped, rfl⟩ := ht
      exact hlanded.of_eq rfl rfl rfl
    · obtain ⟨checker, rfl⟩ := ht
      exact hlanded.of_eq rfl rfl rfl
  · rw [Run.eq_of_unworked ht]
    exact hr.of_eq rfl rfl rfl

/-- A step of the loop keeps a run ready, also where it fails or raises an error. -/
theorem Ready.runStep (hsquare : ∀ u fu, c.problem.Answered u fu → fu.size = u.size)
    (hr : Ready c r) :
    (Run.step a.strategy c).Ends r (fun _ t => Ready c t) (fun _ t => Ready c t) := by
  have hstep : (a.strategy.step c).Ends r (fun _ t => Ready c t) (fun _ t => Ready c t) :=
    hr.step hsquare
  have hrecorded {s : Run σ Exact K (State Exact)} (hs : Ready c s) :
      Ready c (Run.recorded c r.u s) :=
    hs.of_eq (Run.recorded_u c r.u s) (Run.recorded_fu c r.u s) (Run.recorded_ext c r.u s)
  refine ((a.proceeds c).step_ends r).mono (fun _ t ht => ?_) (fun _ t ht => ?_)
  · cases ht with
    | on s stepped => exact hrecorded (hstep.ok stepped)
    | converges s stepped => exact hrecorded (hstep.ok stepped)
    | fails f s s' raised _ ended =>
      have hs := hstep.error raised
      refine hrecorded ?_
      rcases ended.fellBack.core_cases with hcore | ⟨fu, w, hresidual, hcore⟩
      · simp only [Run.core, Prod.mk.injEq] at hcore
        exact hs.of_eq hcore.1 hcore.2.1 ended.ext_eq
      · simp only [Run.core, Prod.mk.injEq] at hcore
        obtain ⟨hu, hfu, -⟩ := hcore
        refine hs.move hsquare ?_ (.inl (congrArg State.history ended.ext_eq))
        rw [hu, hfu]
        exact ⟨_, w, hresidual⟩
  · cases ht with
    | strategy f raised => exact hstep.error raised
    | fallback f s raised _ rest =>
      rw [rest]
      exact (hstep.error raised).of_eq rfl rfl rfl

/-- A run that has started is ready. -/
theorem Ready.of_start {world : σ} (ha : 1 ≤ a.memory)
    (hsquare : ∀ u fu, c.problem.Answered u fu → fu.size = u.size)
    (h : Run.start a.strategy c world = .ok r) : Ready c r := by
  have hanswered : c.problem.Answered r.u r.fu := Run.start_answered h
  have hhistory : r.ext.history = List.replicate a.memory.toNat (a.meritOf c r.fu) :=
    (start_ok (Run.start_prepared h)).history
  have hu := hanswered.size_eq
  refine ⟨hu, (hsquare _ _ hanswered).trans hu, ?_, fun m hm => ?_⟩
  · rw [hhistory]
    intro hnil
    have hzero := (List.replicate_eq_nil_iff _).1 hnil
    omega
  · rw [hhistory] at hm
    rw [List.eq_of_mem_replicate hm]
    exact merit_defined _ _

omit [Entry Exact K] in
/-- The largest merit is one of those that are kept, and none of them is above it. -/
theorem Ready.largest (hr : Ready c r) :
    r.ext.largest ∈ r.ext.history ∧ ∀ m ∈ r.ext.history, m ≤ r.ext.largest := by
  cases h : Vec.maximum? (.ofList r.ext.history) with
  | none =>
    cases hhistory : r.ext.history with
    | nil => exact (hr.history hhistory).elim
    | cons m ms =>
      rw [hhistory] at h
      cases h
  | some m =>
    have hlargest : r.ext.largest = m := by rw [State.largest, h, Option.getD_some]
    have hmem : m ∈ r.ext.history := Vec.maximum?_mem h
    rw [hlargest]
    refine ⟨hmem, le_of_maximum?_le h ?_⟩
    exact le_of_not_less (hr.defined m hmem) (hr.defined m hmem) (by cases m <;> simp)

variable {𝕜 : Type} [RCLike 𝕜] [ExactEntry 𝕜 K] {n : Nat} {x g : Fin n → 𝕜} {spectral : ℝ}

/-- The numbers at a part of the step. -/
theorem reads_ahead (hu : r.u.Reads x) (hfu : r.fu.Reads g)
    (hspectral : r.ext.spectral = real spectral) (part : ℝ) :
    (r.u + real part • ((-r.ext.spectral) • r.fu : Vec K)).Reads
      fun j => x j - ((part * spectral : ℝ) : 𝕜) * g j := by
  rw [hspectral, real_neg]
  convert hu.add ((hfu.smul (-spectral)).smul part) using 1
  funext j
  rw [Pi.add_apply]
  push_cast
  ring

/-- The numbers at a part of the step, behind the iterate. -/
theorem reads_behind (hu : r.u.Reads x) (hfu : r.fu.Reads g)
    (hspectral : r.ext.spectral = real spectral) (part : ℝ) :
    (r.u - real part • ((-r.ext.spectral) • r.fu : Vec K)).Reads
      fun j => x j - ((-part * spectral : ℝ) : 𝕜) * g j := by
  rw [hspectral, real_neg]
  convert hu.sub ((hfu.smul (-spectral)).smul part) using 1
  funext j
  rw [Pi.sub_apply]
  push_cast
  ring

/-- On either side of the iterate a trial is at its part of the step. -/
theorem Chosen.reads {η : Exact} {i : Nat} {part : ℝ} {x' : Trial Exact K}
    (h : Chosen a c (searchFrom a c r η) lo hi i part x') (hu : r.u.Reads x) (hfu : r.fu.Reads g)
    (hspectral : r.ext.spectral = real spectral) :
    x'.u.Reads fun j => x j - ((part * spectral : ℝ) : 𝕜) * g j := by
  rcases h.place with ⟨-, hahead⟩ | ⟨-, hbehind⟩
  · rw [hahead]
    exact reads_ahead hu hfu hspectral part
  · have hreads := reads_behind hu hfu hspectral (-part)
    rw [neg_neg] at hreads
    rw [hbehind]
    exact hreads

/-- **How a step ends before its check.**  Take a square problem, settings that are not refused, and
a run after any calls, with a finite merit. A step from there up to its check passes on an error of
the caller's, or it fails as stalled after one evaluation and two in each round and leaves the
iterate, its residual and the own state as they were; or in one of the rounds it has accepted a
trial at a part `α` of the step, between the powers of both bounds on the reduction, whose merit is
within the largest one that is kept and the tolerance, less what `α` demands. -/
theorem step_settles (ha : a.refusal? = none)
    (hsquare : ∀ u fu, c.problem.Answered u fu → fu.size = u.size) {world : σ}
    (hstart : Run.start a.strategy c world = .ok r₀) (calls : List Call)
    (hr : r₀.called a.strategy c calls = r) {old : ℝ} (hold : a.meritOf c r.fu = real old) :
    (a.step c = a.approach c >>= fun _ => Run.check >>= fun _ => pure ()) ∧
    ∃ lo hi, a.reduceMost = real lo ∧ a.reduceLeast = real hi ∧
      (a.approach c).Ends r
        (fun _ t => ∃ (η : Exact) (i : Nat) (α : ℝ) (top : Exact),
          (∃ w, (a.toleranceAt (context r)).eval r = (.ok η, w)) ∧
          (1 ≤ i ∧ (i : Int) ≤ a.innerLimit) ∧
          (lo ^ (i - 1) ≤ |α| ∧ |α| ≤ hi ^ (i - 1) ∧ 0 < |α| ∧ |α| ≤ 1) ∧
          t.alpha = real α ∧
          c.problem.Answered t.u t.fu ∧
          (0 < α ∧ t.u = r.u + real α • ((-r.ext.spectral) • r.fu : Vec K) ∨
            α < 0 ∧ t.u = r.u - real (-α) • ((-r.ext.spectral) • r.fu : Vec K)) ∧
          (∀ (n : Nat) (x g : Fin n → 𝕜) (spectral : ℝ), r.u.Reads x → r.fu.Reads g →
            r.ext.spectral = real spectral →
              t.u.Reads fun j => x j - ((α * spectral : ℝ) : 𝕜) * g j) ∧
          (top ∈ r.ext.history ∧ ∀ m ∈ r.ext.history, m ≤ top) ∧
          a.meritOf c t.fu ≤ top + η - a.decrease * real (α * α) * real old)
        (fun e t => Interrupted a c r e ∨
          e = .failure (a.exhausted r.ext.spectral) ∧
            (t.work.evaluations : Int) = r.work.evaluations + (1 + 2 * a.innerLimit) ∧
            t.u = r.u ∧ t.fu = r.fu ∧ t.ext = r.ext) := by
  obtain ⟨lo, hi, hsettings⟩ := accepted ha
  have hready : Ready c r := by
    rw [← hr]
    refine Run.called_invariant (fun s hs => hs.runStep hsquare)
      (fun s code printed hs => hs.of_eq rfl rfl rfl) ?_ calls
    exact .of_start hsettings.memory hsquare hstart
  have hlimit := hsettings.innerLimit
  refine ⟨a.step_parts c, lo, hi, hsettings.reduceMost, hsettings.reduceLeast, ?_⟩
  refine (hsettings.approach_settles hready hold).mono (fun _ t ht => ?_) (fun e t ht => ?_)
  · obtain ⟨η, i, α, hsettled⟩ := ht
    have hchosen := hsettled.chosen
    have hround := hsettled.round
    have hpos : 0 < |α| := hsettings.pos_of_isPart hchosen.isPart
    have hle : |α| ≤ 1 :=
      hchosen.isPart.2.trans (pow_le_one₀ hsettings.hi_pos.le hsettings.lt_one.le)
    refine ⟨η, i + 1, α, r.ext.largest, hsettled.tolerance, ⟨by omega, by omega⟩,
      ⟨hchosen.isPart.1, hchosen.isPart.2, hpos, hle⟩, hsettled.alpha, hchosen.stands.answered,
      hchosen.place, ?_, hready.largest, ?_⟩
    · exact fun n x g spectral hx hg hspectral => hchosen.reads hx hg hspectral
    · rw [← hold]
      exact hchosen.accepted
  · obtain ⟨hkept, hinterrupted | ⟨herror, hcount, -⟩⟩ := ht
    · exact .inl hinterrupted
    · refine .inr ⟨herror, by omega, ?_⟩
      rw [Run.eq_of_unworked hkept]
      exact ⟨rfl, rfl, rfl⟩

end Steps

section Identity

open TrustRegion

/-- The method with its standard settings, for exact numbers. -/
noncomputable def plainSearch : SpectralResidual Unit Exact Exact := standard

theorem plainSearch_accepted : plainSearch.refusal? = none := by
  norm_num [refusal?, plainSearch, standard]

/-- The residual of the identity is the point. -/
theorem identity_evaluate {u : Vec Exact} (hu : u.size = 1) (w : Workspace Unit Exact Exact) :
    ((identityProblem.evaluate u).eval w).1 = .ok u := by
  have hF : identityProblem.Computes (identityProblem.residualOf .ok) :=
    Problem.computes_returning rfl fun _ _ => rfl
  have hx : identityProblem.restructure u = .ok ⟨[1], u⟩ := if_pos hu
  rw [hF u w, Problem.residualOf, hx]
  rfl

theorem identity_answers {u fu : Vec Exact} (h : identityProblem.Answered u fu) : fu = u := by
  have hu : u.size = 1 := h.size_eq
  obtain ⟨w, w', heval⟩ := h
  have hself := identity_evaluate hu w
  rw [heval] at hself
  exact Except.ok.inj hself

theorem plainSearch_merit {v : Vec Exact} {x : ℝ} (hv : v.Reads ![x]) :
    plainSearch.meritOf identitySetup v = real (x ^ (2 : ℕ)) := by
  have hnorm : identitySetup.options.norm v = real |x| := hv.norm_single
  have hexponent : plainSearch.exponent = real 2 := by norm_num [plainSearch, standard]
  rw [meritOf, hnorm, hexponent, merit_real (abs_nonneg x) zero_le_two, Real.rpow_two, sq_abs]

theorem plainSearch_merit_one {v : Vec Exact} (hv : v.Reads ![(1 : ℝ)]) :
    plainSearch.meritOf identitySetup v = real 1 :=
  (plainSearch_merit hv).trans (congrArg real (one_pow 2))

/-- The run of the identity from one. -/
theorem plainSearch_starts :
    ∃ r₀, Run.start plainSearch.strategy identitySetup () = .ok r₀ ∧ r₀.u.Reads ![(1 : ℝ)] ∧
      r₀.fu.Reads ![(1 : ℝ)] ∧ r₀.error = none :=
  ⟨_, rfl, rfl, rfl, rfl⟩

theorem identity_settles :
    plainSearch.refusal? = none ∧
      (∀ u fu, identityProblem.Answered u fu → fu.size = u.size) ∧
      ∃ r₀, Run.start plainSearch.strategy identitySetup () = .ok r₀ ∧
        plainSearch.meritOf identitySetup r₀.fu = real 1 ∧
        ∃ lo hi, plainSearch.reduceMost = real lo ∧ plainSearch.reduceLeast = real hi ∧
          (plainSearch.approach identitySetup).Ends r₀
            (fun _ t => ∃ (i : Nat) (α : ℝ), (i : Int) ≤ plainSearch.innerLimit ∧
              lo ^ (i - 1) ≤ |α| ∧ |α| ≤ hi ^ (i - 1) ∧ t.alpha = real α ∧
              identityProblem.Answered t.u t.fu)
            (fun e t => Interrupted plainSearch identitySetup r₀ e ∨
              e = .failure (plainSearch.exhausted r₀.ext.spectral) ∧ t.u = r₀.u ∧
                t.ext = r₀.ext) := by
  have hsquare : ∀ u fu, identityProblem.Answered u fu → fu.size = u.size :=
    fun u fu h => by rw [identity_answers h]
  have hmerit : plainSearch.meritOf identitySetup (.ofList [real 1]) = real 1 :=
    plainSearch_merit_one rfl
  obtain ⟨-, lo, hi, hlo, hhi, hends⟩ :=
    step_settles (c := identitySetup) plainSearch_accepted hsquare rfl [] rfl hmerit
  refine ⟨plainSearch_accepted, hsquare, _, rfl, hmerit, lo, hi, hlo, hhi, ?_⟩
  refine hends.mono (fun _ t ht => ?_) (fun e t ht => ?_)
  · obtain ⟨η, i, α, top, -, ⟨-, hi⟩, ⟨hlow, hhigh, -⟩, halpha, hanswered, -⟩ := ht
    exact ⟨i, α, hi, hlow, hhigh, halpha, hanswered⟩
  · obtain hinterrupted | ⟨herror, -, hu, -, hext⟩ := ht
    · exact .inl hinterrupted
    · exact .inr ⟨herror, hu, hext⟩

end Identity

end SpectralResidual

end RootFinding
