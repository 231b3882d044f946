import RootFinding.Proofs.Consistency
import RootFinding.Proofs.Elimination
import RootFinding.Proofs.ExactParts
import RootFinding.Proofs.LevenbergMarquardt

/-!
# The damping of a Levenberg-Marquardt run

In exact arithmetic a run of the Levenberg-Marquardt strategy keeps its five pieces of state
consistent, and so the equations of every step have one solution.

* `LevenbergMarquardt.Counts a c r₀ p q r`: from `r₀` the run has got to `r` by `p` steps that were
  taken and `q` that were not.
* `LevenbergMarquardt.Boundary`: what holds between the steps, kept by `Boundary.step`.
* `LevenbergMarquardt.Equations`: the normal equations of a step.
* `LevenbergMarquardt.run_damped`: both along a run, with the growth of the scaling.
-/

open scoped Matrix

namespace RootFinding

open Action Exact

namespace LevenbergMarquardt

variable {σ : Type} {c : Setup σ Exact Exact} {a : LevenbergMarquardt Exact}

/-! ## Settings -/

/-- The settings of the damping are the given real numbers. -/
structure HasReals (a : LevenbergMarquardt Exact) (damping increase decrease floor : ℝ) : Prop where
  damping : a.damping = real damping
  increase : a.increase = real increase
  decrease : a.decrease = real decrease
  scaling : a.scaling = real floor

section Settings

variable {damping increase decrease floor : ℝ}

theorem HasReals.accepted (h : a.HasReals damping increase decrease floor)
    (ha : a.refusal? = none) : 0 < damping ∧ 1 < increase ∧ 1 < decrease ∧ 0 < floor := by
  unfold refusal? at ha
  rw [h.damping, h.increase, h.decrease, h.scaling] at ha
  simp only [ofScientific_eq, real_le] at ha
  norm_num at ha
  split_ifs at ha with hdamping hfactors hfloor
  exact ⟨not_le.1 hdamping, not_le.1 (not_or.1 hfactors).1, not_le.1 (not_or.1 hfactors).2,
    not_le.1 hfloor⟩

end Settings

/-! ## Counting -/

/-- The step from `r` comes to a verdict, and is taken or not. -/
def Decides (a : LevenbergMarquardt Exact) (c : Setup σ Exact Exact)
    (r : Run σ Exact Exact (State Exact Exact)) (taken : Bool) : Prop :=
  ∃ J A s s', (model c).eval r = (.ok (J, A), s) ∧ (a.verdict c J A).eval s = (.ok taken, s')

/-- From `r₀` the run gets to the last argument by `p` steps that are taken and `q` that are not,
and none that fails. -/
inductive Counts (a : LevenbergMarquardt Exact) (c : Setup σ Exact Exact)
    (r₀ : Run σ Exact Exact (State Exact Exact)) :
    Nat → Nat → Run σ Exact Exact (State Exact Exact) → Prop
  | start : Counts a c r₀ 0 0 r₀
  | headline {p q : Nat} {t : Run σ Exact Exact (State Exact Exact)}
    (before : Counts a c r₀ p q t) : Counts a c r₀ p q (t.headed a.strategy)
  | taken {p q : Nat} {s t : Run σ Exact Exact (State Exact Exact)} (before : Counts a c r₀ p q s)
    (active : s.isActive) (decides : Decides a c s true)
    (stepped : (Run.step a.strategy c).eval s = (.ok (), t)) (going : t.error = none) :
    Counts a c r₀ (p + 1) q t
  | refused {p q : Nat} {s t : Run σ Exact Exact (State Exact Exact)}
    (before : Counts a c r₀ p q s) (active : s.isActive) (decides : Decides a c s false)
    (stepped : (Run.step a.strategy c).eval s = (.ok (), t)) (going : t.error = none) :
    Counts a c r₀ p (q + 1) t

theorem Decides.inj {r : Run σ Exact Exact (State Exact Exact)} {b b' : Bool}
    (h : Decides a c r b) (h' : Decides a c r b') : b = b' := by
  obtain ⟨J, A, s, t, hmodel, hverdict⟩ := h
  obtain ⟨J', A', s', t', hmodel', hverdict'⟩ := h'
  have hsame := hmodel.symm.trans hmodel'
  simp only [Prod.mk.injEq, Except.ok.injEq] at hsame
  rcases hsame with ⟨⟨rfl, rfl⟩, rfl⟩
  have hanswer := hverdict.symm.trans hverdict'
  simp only [Prod.mk.injEq, Except.ok.injEq] at hanswer
  exact hanswer.1

/-! ## Between the steps -/

/-- `J` is a Jacobian at the present iterate. -/
def JacobianAt (c : Setup σ Exact Exact) (r : Run σ Exact Exact (State Exact Exact))
    (J : Matrix Exact Exact) : Prop :=
  ∃ w w', (c.problem.jacobianAt r.ext.jacobians r.u (some r.fu)).eval w = (.ok J, w')

/-- The gram matrix that is kept is that of the Jacobian at the present iterate, which is real. -/
def GramKept (c : Setup σ Exact Exact) (r : Run σ Exact Exact (State Exact Exact)) : Prop :=
  ∃ J A, ∃ M : RealMatrix r.fu.size c.problem.size,
    JacobianAt c r J ∧ r.work.jacobian = some J ∧ J.Holds M ∧ r.ext.gram = some A ∧
      A.Holds (Mᵀ * M)

/-- What holds after `p` steps that were taken and `q` that were not. -/
structure Boundary (c : Setup σ Exact Exact) (damping increase decrease floor : ℝ) (p q : Nat)
    (r : Run σ Exact Exact (State Exact Exact)) : Prop where
  steps : r.steps = p + q
  size : r.u.size = c.problem.size
  finite : 0 < r.steps → r.fu.isFinite
  concrete : r.ext.jacobians.concrete = true
  damping : r.ext.damping = real (damping * increase ^ q / decrease ^ p)
  factor : r.ext.factor = real increase
  loss : r.ext.loss = c.options.norm r.fu
  scaling : ∃ d : Fin c.problem.size → ℝ, r.ext.scaling.Holds d ∧ ∀ i, floor ≤ d i
  gram : r.ext.renew = false → GramKept c r

variable {damping increase decrease floor : ℝ} {p q : Nat}
  {r s t : Run σ Exact Exact (State Exact Exact)} {J A : Matrix Exact Exact}

/-- The Jacobian of a step from `r` and its gram matrix hold real numbers, and so does the scaling,
`d` before and `e` after it has been raised to the curvatures. -/
structure RealModel (c : Setup σ Exact Exact) (r : Run σ Exact Exact (State Exact Exact))
    (J A : Matrix Exact Exact) (s : Run σ Exact Exact (State Exact Exact))
    (M : RealMatrix r.fu.size c.problem.size) (d e : Fin c.problem.size → ℝ) : Prop where
  jacobian : JacobianAt c r J
  holds : J.Holds M
  gram : A.Holds (Mᵀ * M)
  before : r.ext.scaling.Holds d
  after : s.ext.scaling.Holds e
  grows : d ≤ e
  curvature : r.ext.renew = true → ∀ i, (Mᵀ * M) i i ≤ e i

/-- The Jacobian of a step is real, whether it is kept or made. -/
theorem Modelled.realModel (hp : c.problem.ZeroFilled)
    (hr : Boundary c damping increase decrease floor p q r) (h : Modelled c r J A s) :
    ∃ M d e, RealModel c r J A s M d e ∧ ∀ i, floor ≤ d i := by
  obtain ⟨d, hd, hfloor⟩ := hr.scaling
  cases h with
  | kept hrenew stored gram =>
    obtain ⟨J', A', M, hat, hstored, hM, hgram, hA⟩ := hr.gram hrenew
    obtain rfl : J' = J := Option.some.inj (hstored.symm.trans stored)
    obtain rfl : A' = A := Option.some.inj (hgram.symm.trans gram)
    exact ⟨M, d, d, ⟨hat, hM, hA, hd, hd, le_rfl, by simp [hrenew]⟩, hfloor⟩
  | renewed w hrenew made stored gram =>
    obtain ⟨M, hM⟩ := (Problem.jacobianAt_holds hp hr.concrete hr.size r.fu r.work).ok made
    refine ⟨M, d, _, ⟨⟨_, _, made⟩, hM, by rw [gram]; exact hM.gram, hd,
      hd.maximum hM.gram.diagonal, fun i => le_max_left _ _, fun _ i => le_max_right _ _⟩, hfloor⟩

/-- The scaling of the coordinates grows in a step, to the curvatures of a new Jacobian at
least. -/
structure Raised (c : Setup σ Exact Exact) (r t : Run σ Exact Exact (State Exact Exact))
    (d e : Fin c.problem.size → ℝ) : Prop where
  before : r.ext.scaling.Holds d
  after : t.ext.scaling.Holds e
  grows : d ≤ e
  curvature : r.ext.renew = true → ∀ J w,
    (c.problem.jacobianAt r.ext.jacobians r.u (some r.fu)).eval r.work = (.ok J, w) →
      ∃ M : RealMatrix r.fu.size c.problem.size, J.Holds M ∧ ∀ i, (Mᵀ * M) i i ≤ e i

/-- A step that is not taken stays where it is, so its Jacobian is the one there. -/
theorem Stepped.gramKept (hB : c.backend.Frames) (h : Stepped a c r J A s false t)
    {M : RealMatrix r.fu.size c.problem.size} {d e : Fin c.problem.size → ℝ}
    (hmodel : RealModel c r J A s M d e) : GramKept c (Run.recorded c r.u t) := by
  obtain ⟨hu, hfu⟩ := h.stays rfl
  obtain ⟨gradient, velocity, hext⟩ := h.ext
  have hs := h.modelled.ext
  unfold GramKept
  rw [Run.recorded_fu, hfu]
  refine ⟨J, A, M, ?_, ?_, hmodel.holds, ?_, hmodel.gram⟩
  · unfold JacobianAt
    rw [Run.recorded_ext, Run.recorded_u, Run.recorded_fu, hu, hfu, hext, hs]
    exact hmodel.jacobian
  · rw [Run.recorded_work]
    exact h.stored hB
  · rw [Run.recorded_ext, hext, hs]

/-- A step that is taken or not keeps what holds between the steps, if the numbers are counted on
with the damping. -/
theorem Boundary.next (hB : c.backend.Frames) (hp : c.problem.ZeroFilled)
    (hsize : c.problem.size = Tensor.sizeOf c.problem.guess.shape)
    (hr : Boundary c damping increase decrease floor p q r) {taken b : Bool}
    (h : Stepped a c r J A s taken t) (htested : Run.Tested c b r t)
    (hincrease : a.increase = real increase) {p' q' : Nat} (hcount : p' + q' = p + q + 1)
    (hdamping : s.ext.damping * (if taken then 1.0 / a.decrease else s.ext.factor) =
      real (damping * increase ^ q' / decrease ^ p')) :
    Boundary c damping increase decrease floor p' q' (Run.recorded c r.u t) := by
  obtain ⟨M, d, e, hmodel, hfloor⟩ := h.modelled.realModel hp hr
  obtain ⟨gradient, velocity, hext⟩ := h.ext
  have hlevel : Level a c r :=
    ⟨hr.size, hr.concrete, hr.factor.trans hincrease.symm, hr.loss⟩
  obtain ⟨hu, hconcrete, hfactor, hloss⟩ := h.level hsize hlevel
  have hscaling : t.ext.scaling = s.ext.scaling := by rw [hext]
  refine ⟨?_, hu, fun _ => ?_, hconcrete, ?_, hfactor.trans hincrease, hloss, ⟨e, ?_, ?_⟩,
    fun hrenew => ?_⟩
  · rw [Run.recorded_steps, htested.steps_eq, hr.steps, hcount]
  · rw [Run.recorded_fu]
    exact htested.isFinite.2
  · rw [Run.recorded_ext, hext]
    exact hdamping
  · rw [Run.recorded_ext, hscaling]
    exact hmodel.after
  · exact fun i => (hfloor i).trans (hmodel.grows i)
  · rw [Run.recorded_ext, hext] at hrenew
    obtain rfl : taken = false := hrenew
    exact h.gramKept hB hmodel

/-- **One step.**  A step that does not fail is taken or not, and what holds between the steps holds
after it with the one number or the other counted on; it raises the scaling. -/
theorem Boundary.step (hreal : a.HasReals damping increase decrease floor)
    (hdecrease : 1 < decrease) (hB : c.backend.Frames) (hp : c.problem.ZeroFilled)
    (hsize : c.problem.size = Tensor.sizeOf c.problem.guess.shape)
    (hr : Boundary c damping increase decrease floor p q r)
    (h : (Run.step a.strategy c).eval r = (.ok (), t)) (ht : t.error = none) :
    (Decides a c r true ∧ Boundary c damping increase decrease floor (p + 1) q t ∨
      Decides a c r false ∧ Boundary c damping increase decrease floor p (q + 1) t) ∧
      ∃ d e, Raised c r t d e := by
  obtain ⟨s', hs', rfl⟩ := Run.step_going h ht
  obtain ⟨b, htested⟩ := (a.proceeds c r).ok hs'
  obtain ⟨J, A, s, taken, hstepped⟩ := (step_stepped r).ok hs'
  obtain ⟨M, d, e, hmodel, hfloor⟩ := hstepped.modelled.realModel hp hr
  have hs := hstepped.modelled.ext
  have hdamping : s.ext.damping = real (damping * increase ^ q / decrease ^ p) := by
    rw [hs, hr.damping]
  have hfactor : s.ext.factor = real increase := by rw [hs, hr.factor]
  constructor
  · obtain ⟨s'', hverdict⟩ := hstepped.verdict
    have hdecides : Decides a c r taken := ⟨J, A, s, s'', hstepped.model, hverdict⟩
    cases taken with
    | true =>
      refine .inl ⟨hdecides, hr.next hB hp hsize hstepped htested hreal.increase (by omega) ?_⟩
      rw [if_pos rfl, hdamping, hreal.decrease, ofScientific_eq, real_div (by positivity), real_mul]
      norm_num
      ring
    | false =>
      refine .inr ⟨hdecides, hr.next hB hp hsize hstepped htested hreal.increase (by omega) ?_⟩
      rw [if_neg Bool.false_ne_true, hdamping, hfactor, real_mul]
      congr 1
      ring
  · obtain ⟨gradient, velocity, hext⟩ := hstepped.ext
    refine ⟨d, e, hmodel.before, ?_, hmodel.grows, fun hrenew J' w hmade => ?_⟩
    · rw [Run.recorded_ext, hext]
      exact hmodel.after
    · obtain ⟨w', hmade'⟩ := hstepped.modelled.made hrenew
      rw [hmade'] at hmade
      obtain rfl : J = J' := Except.ok.inj (congrArg Prod.fst hmade)
      exact ⟨M, hmodel.holds, hmodel.curvature hrenew⟩

/-! ## Along a run -/

/-- What holds before the first step. -/
theorem Boundary.of_start (hreal : a.HasReals damping increase decrease floor) {world : σ}
    (h : Run.start a.strategy c world = .ok r) :
    Boundary c damping increase decrease floor 0 0 r ∧ r.error = none ∧
      c.problem.size = Tensor.sizeOf c.problem.guess.shape := by
  have hprepared := start_ok (Run.start_prepared h)
  have hlevel : Level a c r := .of_start h
  have hsteps : r.steps = 0 := Run.start_steps h
  have hsize := (Run.start_answered h).size_eq
  rw [Run.start_u h] at hsize
  have hscaling : r.ext.scaling.Holds fun _ : Fin c.problem.size => floor := by
    rw [hprepared.scaling, hreal.scaling]
    exact Vec.holds_replicate _ floor
  have hdamping : r.ext.damping = real (damping * increase ^ 0 / decrease ^ 0) := by
    rw [hprepared.damping, hreal.damping, pow_zero, pow_zero, mul_one, div_one]
  exact ⟨⟨hsteps, hlevel.size, fun hmade => absurd hsteps hmade.ne', hlevel.concrete,
    hdamping, hlevel.factor.trans hreal.increase, hlevel.loss, ⟨_, hscaling, fun _ => le_rfl⟩,
    fun hkept => absurd (hprepared.renew.symm.trans hkept) (by decide)⟩, Run.start_error h, hsize⟩

/-- The headline of the trace changes nothing. -/
theorem Boundary.headed (hr : Boundary c damping increase decrease floor p q r) :
    Boundary c damping increase decrease floor p q (r.headed a.strategy) :=
  ⟨hr.steps, hr.size, hr.finite, hr.concrete, hr.damping, hr.factor, hr.loss, hr.scaling, hr.gram⟩

section Runs

variable {r₀ : Run σ Exact Exact (State Exact Exact)} {world : σ}
  (hreal : a.HasReals damping increase decrease floor) (ha : a.refusal? = none)
  (hB : c.backend.Frames) (hp : c.problem.ZeroFilled)
  (hstart : Run.start a.strategy c world = .ok r₀)

include hreal ha hB hp hstart

/-- A run keeps what holds between the steps. -/
theorem Counts.boundary (h : Counts a c r₀ p q r) :
    Boundary c damping increase decrease floor p q r := by
  obtain ⟨-, -, hdecrease, -⟩ := hreal.accepted ha
  obtain ⟨h₀, -, hsize⟩ := Boundary.of_start hreal hstart
  -- a step has one verdict, which is the one that is counted
  induction h with
  | start => exact h₀
  | headline _ ih => exact ih.headed
  | taken _ _ decides stepped going ih =>
    rcases (ih.step hreal hdecrease hB hp hsize stepped going).1 with ⟨-, h⟩ | ⟨hrefused, -⟩
    · exact h
    · cases decides.inj hrefused
  | refused _ _ decides stepped going ih =>
    rcases (ih.step hreal hdecrease hB hp hsize stepped going).1 with ⟨htaken, -⟩ | ⟨-, h⟩
    · cases decides.inj htaken
    · exact h

/-- A run that goes on has not failed, and one that has not failed has counted its steps. -/
theorem exists_counts (h : Run.Leads a.strategy c r₀ r) :
    (r.stopped = false → r.error = none) ∧ (r.error = none → ∃ p q, Counts a c r₀ p q r) := by
  obtain ⟨-, -, hdecrease, -⟩ := hreal.accepted ha
  obtain ⟨-, herror, hsize⟩ := Boundary.of_start hreal hstart
  induction h with
  | refl => exact ⟨fun _ => herror, fun _ => ⟨0, 0, .start⟩⟩
  | headline _ ih =>
    refine ⟨ih.1, fun hnone => ?_⟩
    obtain ⟨p, q, hcounts⟩ := ih.2 hnone
    exact ⟨p, q, hcounts.headline⟩
  | @step s t _ active hstep ih =>
    have hs : s.error = none := ih.1 (Run.stopped_of_isActive active)
    refine ⟨fun hgoing => ?_, fun hnone => ?_⟩
    · rw [((a.proceeds c).stepsTo hstep).error_eq hgoing, hs]
    · obtain ⟨p, q, hcounts⟩ := ih.2 hs
      have hboundary := hcounts.boundary hreal ha hB hp hstart
      rcases (hboundary.step hreal hdecrease hB hp hsize hstep hnone).1 with ⟨h, -⟩ | ⟨h, -⟩
      · exact ⟨p + 1, q, .taken hcounts active h hstep hnone⟩
      · exact ⟨p, q + 1, .refused hcounts active h hstep hnone⟩

theorem exists_boundary (h : Run.Leads a.strategy c r₀ r) (hr : r.error = none) :
    ∃ p q, Boundary c damping increase decrease floor p q r := by
  obtain ⟨p, q, hcounts⟩ := (exists_counts hreal ha hB hp hstart h).2 hr
  exact ⟨p, q, hcounts.boundary hreal ha hB hp hstart⟩

/-- A run that has not failed had not failed before. -/
theorem error_of_leads (hs : Run.Leads a.strategy c r₀ s) (h : Run.Leads a.strategy c s t)
    (ht : t.error = none) : s.error = none := by
  induction h with
  | refl => exact ht
  | headline _ ih => exact ih ht
  | step hleads active _ ih =>
    exact ih ((exists_counts hreal ha hB hp hstart (hs.trans hleads)).1
      (Run.stopped_of_isActive active))

/-- A step of the run that has not failed raises the scaling. -/
theorem exists_raised (hs : Run.Leads a.strategy c r₀ s) (hactive : s.isActive)
    (h : (Run.step a.strategy c).eval s = (.ok (), t)) (ht : t.error = none) :
    ∃ d e, Raised c s t d e := by
  obtain ⟨-, -, hdecrease, -⟩ := hreal.accepted ha
  obtain ⟨-, -, hsize⟩ := Boundary.of_start hreal hstart
  obtain ⟨p, q, hboundary⟩ := exists_boundary hreal ha hB hp hstart hs
    ((exists_counts hreal ha hB hp hstart hs).1 (Run.stopped_of_isActive hactive))
  exact (hboundary.step hreal hdecrease hB hp hsize h ht).2

/-- The scaling never falls. -/
theorem scaling_mono (hs : Run.Leads a.strategy c r₀ s) (h : Run.Leads a.strategy c s t)
    (ht : t.error = none) :
    ∃ d e : Fin c.problem.size → ℝ, s.ext.scaling.Holds d ∧ t.ext.scaling.Holds e ∧ d ≤ e := by
  induction h with
  | refl =>
    obtain ⟨p, q, hboundary⟩ := exists_boundary hreal ha hB hp hstart hs ht
    obtain ⟨d, hd, -⟩ := hboundary.scaling
    exact ⟨d, d, hd, hd, le_rfl⟩
  | headline _ ih => exact ih ht
  | step hleads active hstep ih =>
    have hbefore := hs.trans hleads
    obtain ⟨d, e, hd, he, hde⟩ := ih ((exists_counts hreal ha hB hp hstart hbefore).1
      (Run.stopped_of_isActive active))
    obtain ⟨e', f, hraised⟩ := exists_raised hreal ha hB hp hstart hbefore active hstep ht
    obtain rfl := he.inj hraised.before
    exact ⟨d, f, hd, hraised.after, hde.trans hraised.grows⟩

end Runs

/-- The Jacobian `J` was made in a step on the way from `r₀` to `t`. -/
def Computed (a : LevenbergMarquardt Exact) (c : Setup σ Exact Exact)
    (r₀ t : Run σ Exact Exact (State Exact Exact)) (J : Matrix Exact Exact) : Prop :=
  ∃ s s' w, Run.Leads a.strategy c r₀ s ∧ s.isActive ∧ s.ext.renew = true ∧
    (c.problem.jacobianAt s.ext.jacobians s.u (some s.fu)).eval s.work = (.ok J, w) ∧
      (Run.step a.strategy c).eval s = (.ok (), s') ∧ Run.Leads a.strategy c s' t

/-! ## The equations of a step -/

/-- The normal equations that a step solves in the state `s` for its velocity: the matrix that it
factorises is positive definite, so they have one solution, and it goes downhill. That is the
velocity of the step if the linear system is solved by elimination. -/
structure Equations (c : Setup σ Exact Exact) (s : Run σ Exact Exact (State Exact Exact))
    (J A : Matrix Exact Exact) {m n : Nat} (M : RealMatrix m n) (damping : ℝ)
    (d : Fin n → ℝ) : Prop where
  jacobian : JacobianAt c s J
  holds : J.Holds M
  damped : s.ext.damping = real damping
  scaled : s.ext.scaling.Holds d
  factorises : (velocity c J A).Ends s
    (fun _ t => ∃ N, t.work.system.matrix = some N ∧ N.Holds (M.damped damping d))
    (fun _ t => ∃ N, t.work.system.matrix = some N ∧ N.Holds (M.damped damping d))
  posDef : (M.damped damping d).PosDef
  unique (f : Fin m → ℝ) : s.fu.Holds f →
    ∃ v, (∀ w, M.damped damping d *ᵥ w = -(Mᵀ *ᵥ f) ↔ w = v) ∧
      (Mᵀ *ᵥ f ≠ 0 → (Mᵀ *ᵥ f) ⬝ᵥ v < 0) ∧
      (c.backend.Direct → (∀ M ∈ s.work.system.method, SolveMethod.IsDirect M) →
        (velocity c J A).Ends s (fun x _ => x.Holds v) (fun _ _ => True))

/-- The matrix of a step, as it is given to the linear system. -/
theorem damped_holds {m n : Nat} {M : RealMatrix m n} {d : Fin n → ℝ} (hA : A.Holds (Mᵀ * M))
    (hdamping : s.ext.damping = real damping) (hd : s.ext.scaling.Holds d) :
    (A.addDiagonal (s.ext.damping • s.ext.scaling)).Holds (M.damped damping d) := by
  rw [hdamping]
  exact hA.addDiagonal (hd.smul damping)

/-- The matrix that the velocity is computed with, whether it is found or not. -/
theorem velocity_factorises (hB : c.backend.Frames) {m n : Nat} {M : RealMatrix m n}
    (hJ : J.Holds M) (hfu : s.fu.size = m) :
    (velocity c J A).Ends s
      (fun _ t => t.work.system.matrix = some (A.addDiagonal (s.ext.damping • s.ext.scaling)))
      (fun _ t => t.work.system.matrix = some (A.addDiagonal (s.ext.damping • s.ext.scaling))) := by
  obtain ⟨gradient, hgradient, -⟩ := hJ.applyTranspose hfu
  simp only [velocity, ends_bind, ends_get, ends_ofFault_ok hgradient, Run.ends_update,
    Run.ends_onWork, ends_pure]
  -- nothing that follows the factorisation gives the linear system another matrix
  refine (LinearSystem.factorize_stores _ _ _).mono (fun _ w hw => ?_) (fun _ _ h => h)
  exact ((LinearSystem.solve_keeps LinearSystem.spared_matrix hB (evaluate_given c) _).ends w).mono
    (fun _ _ h => h.trans hw) (fun _ _ h => h.trans hw)

/-- With a direct method the velocity solves the damped normal equations, whatever field the numbers
are from; it fails only with the factorisation. -/
theorem velocity_eliminates {𝕜 K : Type} [RCLike 𝕜] [Entry Exact K] [ExactEntry 𝕜 K]
    [ExactParts 𝕜 K] {c : Setup σ Exact K} {s : Run σ Exact K (State Exact K)}
    {J A : Matrix Exact K} (hB : c.backend.Eliminates 𝕜)
    (hmethod : ∀ M ∈ s.work.system.method, SolveMethod.IsDirect M) {m n : Nat}
    {M : FieldMatrix 𝕜 m n} {d : Fin n → 𝕜} {f : Fin m → 𝕜} (hJ : J.Reads M)
    (hA : A.Reads (Mᵀ * M)) (hdamping : s.ext.damping = real damping)
    (hd : s.ext.scaling.Reads d) (hf : s.fu.Reads f) :
    (velocity c J A).Ends s
      (fun x _ => ∃ v, x.Reads v ∧ M.damped damping d *ᵥ v = -(Mᵀ *ᵥ f))
      (fun e _ => ∃ w, (LinearSystem.factorize c.backend
        (A.addDiagonal (s.ext.damping • s.ext.scaling))).eval s.work = (.error e, w)) := by
  obtain ⟨gradient, hgradient, hg⟩ := hJ.applyTranspose hf.size
  have hsystem : (A.addDiagonal (s.ext.damping • s.ext.scaling)).Reads (M.damped damping d) := by
    rw [hdamping]
    exact hA.addDiagonal (hd.smul damping)
  have hdirect : (s.work.system.method.getD
      (SolveMethod.forMatrix (A.addDiagonal (s.ext.damping • s.ext.scaling)))).IsDirect := by
    cases hM : s.work.system.method with
    | none => exact hsystem.forMatrix_isDirect
    | some M => exact hmethod M hM
  simp only [velocity, ends_bind, ends_get, ends_ofFault_ok hgradient, Run.ends_update,
    Run.ends_onWork, ends_pure]
  have hsolves := LinearSystem.eliminates hB hsystem (hg f hf) c.problem.evaluate hdirect
  refine ends_iff.2 ⟨fun _ w hw => ?_, fun e w hw => ⟨w, hw⟩⟩
  refine (hsolves.ok hw).mono (fun x _ hx => ?_) (fun _ _ h => h.elim)
  obtain ⟨y, hy, hsolution⟩ := hx
  exact ⟨-y, hy.neg, by rw [Matrix.mulVec_neg, hsolution]⟩

/-- With a direct method the velocity solves the real damped normal equations. -/
theorem velocity_solves (hB : c.backend.Direct)
    (hmethod : ∀ M ∈ s.work.system.method, SolveMethod.IsDirect M) {m n : Nat}
    {M : RealMatrix m n} {d : Fin n → ℝ} {f : Fin m → ℝ} (hJ : J.Holds M)
    (hA : A.Holds (Mᵀ * M)) (hdamping : s.ext.damping = real damping)
    (hd : s.ext.scaling.Holds d) (hf : s.fu.Holds f) :
    (velocity c J A).Ends s
      (fun x _ => ∃ v, x.Holds v ∧ M.damped damping d *ᵥ v = -(Mᵀ *ᵥ f)) (fun _ _ => True) :=
  (velocity_eliminates (Backend.direct_iff.1 hB) hmethod (Matrix.holds_iff_reads.1 hJ)
    (Matrix.holds_iff_reads.1 hA) hdamping hd hf).mono (fun _ _ h => h) (fun _ _ _ => trivial)

/-- Between the steps everything is positive that has to be. -/
theorem Boundary.equations (hdamping : 0 < damping) (hincrease : 1 < increase)
    (hdecrease : 1 < decrease) (hfloor : 0 < floor) (hB : c.backend.Frames)
    (hp : c.problem.ZeroFilled) (hr : Boundary c damping increase decrease floor p q r)
    (h : Modelled c r J A s) :
    ∃ (M : RealMatrix r.fu.size c.problem.size) (d : Fin c.problem.size → ℝ),
      Equations c s J A M (damping * increase ^ q / decrease ^ p) d := by
  obtain ⟨M, d, e, hmodel, hd⟩ := h.realModel hp hr
  have hs : s.ext.damping = real (damping * increase ^ q / decrease ^ p) := by
    rw [h.ext, hr.damping]
  have hrest := Run.eq_of_rest h.rest
  have hfu : s.fu = r.fu := by rw [hrest]
  have hu : s.u = r.u := by rw [hrest]
  have hjacobians : s.ext.jacobians = r.ext.jacobians := by rw [h.ext]
  have hpositive : 0 < damping * increase ^ q / decrease ^ p := by positivity
  have hscaling : ∀ i, 0 < e i := fun i => hfloor.trans_le ((hd i).trans (hmodel.grows i))
  have hposDef := M.damped_posDef hpositive hscaling
  have hsystem := damped_holds hmodel.gram hs hmodel.after
  refine ⟨M, e, ?_, hmodel.holds, hs, hmodel.after, ?_, hposDef, fun f hf => ?_⟩
  · unfold JacobianAt
    rw [hfu, hu, hjacobians]
    exact hmodel.jacobian
  · exact (velocity_factorises hB hmodel.holds (by rw [hfu])).mono
      (fun _ _ h => ⟨_, h, hsystem⟩) (fun _ _ h => ⟨_, h, hsystem⟩)
  · obtain ⟨v, hunique, hdownhill⟩ := RealMatrix.exists_velocity hposDef (Mᵀ *ᵥ f)
    refine ⟨v, hunique, hdownhill, fun hdirect hmethod => ?_⟩
    refine (velocity_solves hdirect hmethod hmodel.holds hmodel.gram hs hmodel.after hf).mono
      (fun x _ hx => ?_) (fun _ _ h => h)
    obtain ⟨y, hy, hsolves⟩ := hx
    rw [← (hunique y).1 hsolves]
    exact hy

/-- **Damping.**  In a run of the Levenberg-Marquardt strategy with accepted settings, whatever is
reached without a failure is reached by some number `p` of steps that were taken and some number `q`
that were not. They fix the damping, which is positive; the factor for the next step is that of a
rise, the loss is the norm at the iterate, and a gram matrix that is kept is that of the Jacobian at
the iterate. The scaling never falls, and is at least its floor and the diagonal of the gram matrix
of every Jacobian that was made. So the matrix that the next step factorises is positive definite,
and its equations have one solution, which goes downhill. -/
theorem run_damped (a : LevenbergMarquardt Exact) (c : Setup σ Exact Exact) (world : σ)
    {damping increase decrease floor : ℝ} (hreal : a.HasReals damping increase decrease floor)
    (ha : a.refusal? = none) (hB : c.backend.Frames) (hp : c.problem.ZeroFilled)
    {r₀ : Run σ Exact Exact (State Exact Exact)}
    (hstart : Run.start a.strategy c world = .ok r₀) :
    (∀ r, Run.Leads a.strategy c r₀ r → r.error = none → ∃ p q, Counts a c r₀ p q r) ∧
      (∀ p q r, Counts a c r₀ p q r → Boundary c damping increase decrease floor p q r ∧
        0 < damping * increase ^ q / decrease ^ p) ∧
      (∀ s t, Run.Leads a.strategy c r₀ s → Run.Leads a.strategy c s t → t.error = none →
        ∃ d e : Fin c.problem.size → ℝ,
          s.ext.scaling.Holds d ∧ t.ext.scaling.Holds e ∧ d ≤ e) ∧
      (∀ t J, Computed a c r₀ t J → t.error = none →
        ∃ m, ∃ (M : RealMatrix m c.problem.size) (e : Fin c.problem.size → ℝ),
          J.Holds M ∧ t.ext.scaling.Holds e ∧ ∀ i, (Mᵀ * M) i i ≤ e i) ∧
      ∀ r, Run.Leads a.strategy c r₀ r → r.error = none →
        (model c).Ends r
          (fun x s => ∃ (M : RealMatrix r.fu.size c.problem.size) (damping : ℝ)
            (d : Fin c.problem.size → ℝ), Equations c s x.1 x.2 M damping d)
          (fun _ _ => True) := by
  obtain ⟨hdamping, hincrease, hdecrease, hfloor⟩ := hreal.accepted ha
  refine ⟨fun r hr => (exists_counts hreal ha hB hp hstart hr).2,
    fun p q r hr => ⟨hr.boundary hreal ha hB hp hstart, by positivity⟩,
    fun s t hs => scaling_mono hreal ha hB hp hstart hs, ?_, ?_⟩
  · intro t J hJ ht
    obtain ⟨s, s', w, hs, hactive, hrenew, hmade, hstep, hleads⟩ := hJ
    have hs' : Run.Leads a.strategy c r₀ s' := hs.step hactive hstep
    have herror := error_of_leads hreal ha hB hp hstart hs' hleads ht
    obtain ⟨d, e, hraised⟩ := exists_raised hreal ha hB hp hstart hs hactive hstep herror
    obtain ⟨M, hM, hcurvature⟩ := hraised.curvature hrenew J w hmade
    obtain ⟨e', f, he', hf, hgrows⟩ := scaling_mono hreal ha hB hp hstart hs' hleads ht
    obtain rfl := he'.inj hraised.after
    -- the scaling rises to the curvature in the step that makes the Jacobian, and stays there
    exact ⟨_, M, f, hM, hf, fun i => (hcurvature i).trans (hgrows i)⟩
  · intro r hr herror
    obtain ⟨p, q, hboundary⟩ := exists_boundary hreal ha hB hp hstart hr herror
    refine (model_modelled r).mono (fun x s hs => ?_) (fun _ _ h => h)
    obtain ⟨M, d, hequations⟩ :=
      hboundary.equations hdamping hincrease hdecrease hfloor hB hp hs
    exact ⟨M, _, d, hequations⟩

/-- Two equations in one unknown, the second of which has no solution. -/
noncomputable def lineProblem : Problem Unit Exact Exact where
  residual := .returning fun t w => (.ok ⟨[2], .ofList (t.entries.toList ++ [real 1])⟩, w)
  guess := ⟨[1], .ofList [real 1]⟩
  jacobian := some fun _ w => (.ok (.dense ⟨1, [[real 1], [real 0]], by simp⟩), w)
  leastSquares := true

noncomputable def lineSetup : Setup Unit Exact Exact where
  problem := lineProblem
  options :=
    { abstol := 1e-8, reltol := 1e-8, termination := .standard, norm := Vec.norm }
  backend := .standard

theorem line_damped :
    (standard : LevenbergMarquardt Exact).HasReals 1.0 2.0 3.0 1e-8 ∧
      (standard : LevenbergMarquardt Exact).refusal? = none ∧
      lineSetup.backend.Frames ∧ lineSetup.backend.Direct ∧ lineProblem.ZeroFilled ∧
      ∃ r₀, Run.start (standard : LevenbergMarquardt Exact).strategy lineSetup () = .ok r₀ ∧
        (∀ p q r, Counts standard lineSetup r₀ p q r →
          Boundary lineSetup 1.0 2.0 3.0 1e-8 p q r ∧ (0 : ℝ) < 1.0 * 2.0 ^ q / 3.0 ^ p) ∧
        ∀ r, Run.Leads (standard : LevenbergMarquardt Exact).strategy lineSetup r₀ r →
          r.error = none → (model lineSetup).Ends r
            (fun x s => ∃ (M : RealMatrix r.fu.size lineProblem.size) (damping : ℝ)
              (d : Fin lineProblem.size → ℝ), Equations lineSetup s x.1 x.2 M damping d)
            (fun _ _ => True) := by
  have hreal : (standard : LevenbergMarquardt Exact).HasReals 1.0 2.0 3.0 1e-8 :=
    ⟨rfl, rfl, rfl, rfl⟩
  have haccepted : (standard : LevenbergMarquardt Exact).refusal? = none := by
    unfold refusal?
    rw [hreal.damping, hreal.increase, hreal.decrease, hreal.scaling]
    norm_num
  have hfilled : lineProblem.ZeroFilled := by
    rintro jac hjac x w A w' h
    cases hjac
    cases h
  obtain ⟨-, hcounts, -, -, hequations⟩ :=
    run_damped standard lineSetup () hreal haccepted Backend.standard_frames hfilled rfl
  exact ⟨hreal, haccepted, Backend.standard_frames, Backend.standard_direct, hfilled, _, rfl,
    hcounts, hequations⟩

end LevenbergMarquardt

end RootFinding
