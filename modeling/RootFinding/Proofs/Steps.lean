import RootFinding.Proofs.Course

/-!
# What a step does to a run

The steps of all strategies treat what a run shares in the same way. A step moves the iterate at
most once, and only together with its residual; a step that returns has checked the iterate that it
leaves; and the outcome changes in a check that is passed, and nowhere else.

* `Run.Advanced c r t`: what a step from `r` has done before its check.
* `Run.Tested c b r t`: what a step has done that returns, where `b` is the answer of the check.
* `Run.Broken c r t`: what a step has done that fails, at whatever point.
* `Strategy.Proceeds S c`: every step of a strategy ends in one of the last two.
  `Algorithm.proceeds` has one lemma for each strategy.
-/

namespace RootFinding

open Action

variable {σ R K X : Type} [Scalar R] [Entry R K] {c : Setup σ R K}

/-- The problem has answered `fu` at `u`. -/
def Problem.Answered (p : Problem σ R K) (u fu : Vec K) : Prop :=
  ∃ w w', (p.evaluate u).eval w = (.ok fu, w')

theorem Problem.evaluate_answered (p : Problem σ R K) (u : Vec K) (w : Workspace σ R K) :
    (p.evaluate u).Ends w (fun fu _ => p.Answered u fu) (fun _ _ => True) :=
  ends_iff.2 ⟨fun _ w' h => ⟨w, w', h⟩, fun _ _ _ => trivial⟩

/-- A point with a residual has as many entries as the guess has places. -/
theorem Problem.Answered.size_eq {p : Problem σ R K} {u fu : Vec K} (h : p.Answered u fu) :
    u.size = Tensor.sizeOf p.guess.shape := by
  obtain ⟨w, w', h⟩ := h
  have key : (p.evaluate u).Ends w (fun _ _ => u.size = Tensor.sizeOf p.guess.shape)
      (fun _ _ => True) := by
    unfold Problem.evaluate
    rw [ends_bind, ends_ofFault]
    refine ⟨fun x hx => ends_true.mono (fun _ _ _ => ?_) (fun _ _ _ => trivial), fun _ _ => trivial⟩
    unfold Problem.restructure Tensor.reshape at hx
    split at hx
    next hsize => exact hsize
    next => cases hx
  exact key.ok h

namespace Run

/-- How a run has ended so far, and how far it has got. -/
def status (r : Run σ R K X) : ReturnCode × Bool × Option (Failure R K) × Nat × Int :=
  (r.code, r.stopped, r.error, r.steps, r.maxiters)

/-- The run after a check that is passed. -/
def passed (r : Run σ R K X) : Run σ R K X := { r with code := .success, stopped := true }

/-- The iterate of `t` is that of `r`, or another one with its residual. -/
def Moved (c : Setup σ R K) (r t : Run σ R K X) : Prop :=
  (t.u = r.u ∧ t.fu = r.fu) ∨ c.problem.Answered t.u t.fu

/-- A step from `r` that has not come to its check. -/
structure Advanced (c : Setup σ R K) (r t : Run σ R K X) : Prop where
  moved : Moved c r t
  checker : t.checker = r.checker
  status : t.status = r.status

/-- A step from `r` that returns, and `b` is the answer of its check. -/
structure Tested (c : Setup σ R K) (b : Bool) (r t : Run σ R K X) : Prop where
  moved : Moved c r t
  checked : (Checker.check t.fu t.u t.previous).eval r.checker = (.ok b, t.checker)
  status : t.status = if b then r.passed.status else r.status

/-- A step from `r` that fails, before its check, in the check or after one that is not passed. -/
structure Broken (c : Setup σ R K) (r t : Run σ R K X) : Prop where
  moved : Moved c r t
  checker : t.checker = r.checker ∨
    ∃ x, x ≠ .ok true ∧ (Checker.check t.fu t.u t.previous).eval r.checker = (x, t.checker)
  status : t.status = r.status

variable {r s t : Run σ R K X}

section Status

omit [Scalar R] [Entry R K]

theorem code_of_status (h : t.status = r.status) : t.code = r.code := congrArg (·.1) h

theorem stopped_of_status (h : t.status = r.status) : t.stopped = r.stopped :=
  congrArg (·.2.1) h

theorem error_of_status (h : t.status = r.status) : t.error = r.error := congrArg (·.2.2.1) h

theorem steps_of_status (h : t.status = r.status) : t.steps = r.steps := congrArg (·.2.2.2.1) h

theorem maxiters_of_status (h : t.status = r.status) : t.maxiters = r.maxiters :=
  congrArg (·.2.2.2.2) h

end Status

theorem Tested.met (h : Tested c true r t) : t.status = r.passed.status := by
  simpa using h.status

theorem Tested.unmet (h : Tested c false r t) : t.status = r.status := by
  simpa using h.status

theorem Tested.steps_eq {b : Bool} (h : Tested c b r t) : t.steps = r.steps := by
  cases b with
  | true => exact (steps_of_status h.met).trans rfl
  | false => exact steps_of_status h.unmet

theorem Tested.maxiters_eq {b : Bool} (h : Tested c b r t) : t.maxiters = r.maxiters := by
  cases b with
  | true => exact (maxiters_of_status h.met).trans rfl
  | false => exact maxiters_of_status h.unmet

theorem Tested.error_eq {b : Bool} (h : Tested c b r t) : t.error = r.error := by
  cases b with
  | true => exact (error_of_status h.met).trans rfl
  | false => exact error_of_status h.unmet

theorem Advanced.refl : Advanced c r r := ⟨.inl ⟨rfl, rfl⟩, rfl, rfl⟩

theorem Advanced.of_eq (h : Advanced c r s) (hcore : t.core = s.core)
    (hstatus : t.status = s.status) : Advanced c r t := by
  simp only [core, Prod.mk.injEq] at hcore
  rcases hcore with ⟨hu, hfu, hk⟩
  refine ⟨?_, hk.trans h.checker, hstatus.trans h.status⟩
  unfold Moved
  rw [hu, hfu]
  exact h.moved

theorem Advanced.of_rest (h : Advanced c r s) (ht : t.rest = s.rest) : Advanced c r t := by
  rw [eq_of_rest ht]
  exact h.of_eq rfl rfl

theorem Advanced.of_unworked (h : Advanced c r s) (ht : t.unworked = s.unworked) :
    Advanced c r t := by
  rw [eq_of_unworked ht]
  exact h.of_eq rfl rfl

theorem Advanced.move (h : Advanced c r s) (hfu : c.problem.Answered t.u t.fu)
    (hk : t.checker = s.checker) (hstatus : t.status = s.status) : Advanced c r t :=
  ⟨.inr hfu, hk.trans h.checker, hstatus.trans h.status⟩

theorem Advanced.broken (h : Advanced c r t) : Broken c r t := ⟨h.moved, .inl h.checker, h.status⟩

theorem Tested.of_rest {b : Bool} (h : Tested c b r s) (ht : t.rest = s.rest) :
    Tested c b r t := by
  rw [eq_of_rest ht]
  exact ⟨h.moved, h.checked, h.status⟩

theorem Tested.broken (h : Tested c false r t) : Broken c r t :=
  ⟨h.moved, .inr ⟨_, by simp, h.checked⟩, h.unmet⟩

/-- The check of a step that has advanced. -/
theorem Advanced.check_ends (h : Advanced c r s) :
    check.Ends s (fun b t => Tested c b r t) (fun _ t => Broken c r t) := by
  simp only [check, ends_bind, ends_get, ends_within]
  rw [h.checker, ends_iff]
  constructor
  · intro b k hk
    cases b with
    | true => exact ⟨h.moved, hk, congrArg (fun x => (_, _, x.2.2)) h.status⟩
    | false => exact ⟨h.moved, hk, h.status⟩
  · intro e k hk
    exact ⟨h.moved, .inr ⟨.error e, by simp, hk⟩, h.status⟩

end Run

/-- Every step of a strategy leaves the run as a step that returns or as one that fails. -/
def Strategy.Proceeds (S : Strategy σ R K X) (c : Setup σ R K) : Prop :=
  ∀ r : Run σ R K X, (S.step c).Ends r (fun _ t => ∃ b, Run.Tested c b r t)
    (fun _ t => Run.Broken c r t)

/-- A step that ends with a check. -/
theorem Run.Advanced.checked_ends {r s : Run σ R K X} (h : Advanced c r s) :
    (do let _ ← check : Stepping σ R K X Unit).Ends s (fun _ t => ∃ b, Tested c b r t)
      (fun _ t => Broken c r t) :=
  h.check_ends.bind (fun b _ ht => ⟨b, ht⟩) (fun _ _ ht => ht)

/-! ## Strategies -/

namespace Newton

theorem renew_keeps (a : Newton σ R K) (c : Setup σ R K) : Keeps Run.rest (a.renew c) := by
  apply keeps_get.bind
  intro r
  dsimp only
  split
  · exact (Run.keeps_rest (Run.keeps_onWork _)).bind fun J =>
      (Run.keeps_rest (Run.keeps_onWork _)).bind fun _ =>
        (Run.keeps_update _).bind fun _ => Run.keeps_update _
  · exact Run.keeps_update _

theorem direction_keeps (a : Newton σ R K) (c : Setup σ R K) :
    Keeps Run.unworked (a.direction c) :=
  keeps_get.bind fun _ => (keeps_ofFault _).bind fun _ => Run.keeps_onWork _

theorem advance_advanced (du : Vec K) (alpha : R) {r s : Run σ R K (State σ R K)}
    (h : Run.Advanced c r s) : (advance c du alpha).Ends s (fun _ t => Run.Advanced c r t)
      (fun _ t => Run.Advanced c r t) := by
  simp only [advance, ends_bind, ends_get, ends_modify, Run.ends_evaluate]
  refine (c.problem.evaluate_answered _ _).mono (fun fu w hfu => ?_) (fun _ _ _ => h.of_eq rfl rfl)
  simp only [Run.ends_moveTo, ends_ofFault, Run.ends_update]
  exact ⟨fun _ _ => h.move hfu rfl rfl, fun _ _ => h.move hfu rfl rfl⟩

theorem proceeds (a : Newton σ R K) (c : Setup σ R K) : a.strategy.Proceeds c := by
  intro r
  refine Ends.bind_keeps (a.renew_keeps c) (fun _ r₁ h₁ => ?_)
    (fun _ _ h => (Run.Advanced.refl.of_rest h).broken)
  have hr₁ : Run.Advanced c r r₁ := Run.Advanced.refl.of_rest h₁
  refine Ends.bind_keeps (a.direction_keeps c) (fun du r₂ h₂ => ?_)
    (fun _ _ h => (hr₁.of_unworked h).broken)
  have hr₂ : Run.Advanced c r r₂ := hr₁.of_unworked h₂
  rw [ends_bind, ends_get]
  refine Ends.bind_keeps (Run.keeps_onWork _) (fun alpha r₃ h₃ => ?_)
    (fun _ _ h => (hr₂.of_unworked h).broken)
  exact (advance_advanced du alpha (hr₂.of_unworked h₃)).bind (fun _ _ h => h.checked_ends)
    (fun _ _ h => h.broken)

end Newton

namespace PseudoTransient

theorem direction_keeps (c : Setup σ R K) :
    Keeps Run.unworked (direction c : Stepping σ R K (State R K) (Vec K)) :=
  keeps_get.bind fun _ => (Run.keeps_onWork _).bind fun _ => (keeps_ofFault _).bind fun _ =>
    (keeps_ofFault _).bind fun _ => (Run.keeps_onWork _).bind fun _ => Run.keeps_onWork _

theorem adapt_keeps : Keeps Run.rest (adapt : Stepping σ R K (State R K) Unit) := by
  refine keeps_get.bind fun r => (keeps_ofFault _).bind fun error =>
    (Run.keeps_update _).bind fun _ => (Run.keeps_onExt _).bind fun next => ?_
  dsimp only
  split
  · exact (Run.keeps_notice _).bind fun _ => Run.keeps_update _
  · exact Run.keeps_update _

theorem proceeds (a : PseudoTransient R) (c : Setup σ R K) :
    (a.strategy : Strategy σ R K (State R K)).Proceeds c := by
  intro r
  refine Ends.bind_keeps (direction_keeps c) (fun du r₁ h₁ => ?_)
    (fun _ _ h => (Run.Advanced.refl.of_unworked h).broken)
  have hr₁ : Run.Advanced c r r₁ := Run.Advanced.refl.of_unworked h₁
  simp only [ends_bind, ends_get, ends_modify, Run.ends_evaluate]
  refine (c.problem.evaluate_answered _ _).mono (fun fu w hfu => ?_)
    (fun _ _ _ => Run.Advanced.broken (hr₁.of_eq rfl rfl))
  rw [Run.ends_moveTo]
  refine Ends.mono (Run.Advanced.check_ends (hr₁.move hfu rfl rfl)) (fun converged r₂ h₂ => ?_)
    (fun _ _ h => h)
  cases converged with
  | true => exact ⟨true, h₂⟩
  | false =>
    rw [if_neg Bool.false_ne_true]
    exact (adapt_keeps.ends r₂).mono (fun _ _ h => ⟨false, h₂.of_rest h⟩)
      (fun _ _ h => (h₂.of_rest h).broken)

end PseudoTransient

namespace TrustRegion

theorem remodel_keeps (c : Setup σ R K) :
    Keeps Run.rest (remodel c : Stepping σ R K (State R K) Unit) :=
  keeps_get.bind fun _ => (Run.keeps_rest (Run.keeps_onWork _)).bind fun _ =>
    (Run.keeps_rest (Run.keeps_onWork _)).bind fun _ =>
      (Run.keeps_rest (Run.keeps_onWork _)).bind fun _ => (keeps_ofFault _).bind fun _ =>
        (Run.keeps_rest (Run.keeps_onWork _)).bind fun _ => Run.keeps_update _

theorem trial_ends (r : Run σ R K (State R K)) :
    (trial c).Ends r (fun x t => c.problem.Answered x.u x.fu ∧ t.unworked = r.unworked)
      (fun _ t => t.unworked = r.unworked) := by
  simp only [trial, ends_bind, ends_get, ends_ofFault, Run.ends_evaluate]
  refine ⟨?_, fun _ _ => trivial⟩
  intro x _
  rcases x with ⟨m, J⟩
  refine ⟨fun du _ => ?_, fun _ _ => trivial⟩
  refine (c.problem.evaluate_answered _ _).mono (fun fu w hfu => ?_) (fun _ _ _ => rfl)
  exact ((Run.keeps_onWork _).ends _).mono (fun _ _ h => ⟨hfu, h.trans rfl⟩)
    (fun _ _ h => h.trans rfl)

theorem propose_ends (r : Run σ R K (State R K)) :
    (propose c).Ends r (fun x t => c.problem.Answered x.u x.fu ∧ t.rest = r.rest)
      (fun _ t => t.rest = r.rest) := by
  simp only [propose, ends_bind, ends_get]
  refine Ends.guard (I := fun t => t.rest = r.rest) (fun _ => (remodel_keeps c).ends r)
    (fun _ => rfl) (fun r₁ h₁ => ?_)
  exact (trial_ends r₁).mono
    (fun _ _ h => ⟨h.1, ((congrArg Run.rest (Run.eq_of_unworked h.2)).trans rfl).trans h₁⟩)
    (fun _ _ h => ((congrArg Run.rest (Run.eq_of_unworked h)).trans rfl).trans h₁)

theorem conclude_advanced {x : Trial R K} (hx : c.problem.Answered x.u x.fu)
    {r s : Run σ R K (State R K)} (h : Run.Advanced c r s) :
    (conclude x).Ends s (fun _ t => Run.Advanced c r t) (fun _ t => Run.Advanced c r t) := by
  simp only [conclude, ends_bind, ends_get]
  refine ((Run.keeps_onExt _).ends s).mono (fun accepted r₁ h₁ => ?_) (fun _ _ ht => h.of_rest ht)
  have hr₁ : Run.Advanced c r r₁ := h.of_rest h₁
  rw [ends_modify]
  split
  · simp only [ends_bind, ends_modify, Run.ends_moveTo, Run.ends_update]
    exact hr₁.move hx rfl rfl
  · have hreported : Run.Advanced c r { r₁ with alpha := r₁.ext.radius.radius } :=
      hr₁.of_eq rfl rfl
    rw [ends_bind, ends_get]
    exact ((Run.keeps_notice _).ends _).mono (fun _ _ ht => hreported.of_rest ht)
      (fun _ _ ht => hreported.of_rest ht)

theorem proceeds (a : TrustRegion R) (c : Setup σ R K) :
    (a.strategy : Strategy σ R K (State R K)).Proceeds c := by
  intro r
  refine (propose_ends r).bind ?_ (fun _ _ h => (Run.Advanced.refl.of_rest h).broken)
  intro x r₁ hproposed
  rcases hproposed with ⟨hx, h₁⟩
  exact (conclude_advanced hx (Run.Advanced.refl.of_rest h₁)).bind (fun _ _ h => h.checked_ends)
    (fun _ _ h => h.broken)

end TrustRegion

namespace LevenbergMarquardt

theorem renewJacobian_keeps (c : Setup σ R K) :
    Keeps Run.rest (renewJacobian c : Stepping σ R K (State R K) Unit) :=
  keeps_get.bind fun _ => (Run.keeps_rest (Run.keeps_onWork _)).bind fun _ => Run.keeps_update _

theorem velocity_keeps (c : Setup σ R K) (J A : Matrix R K) :
    Keeps Run.rest (velocity c J A : Stepping σ R K (State R K) (Vec K)) :=
  keeps_get.bind fun _ => (keeps_ofFault _).bind fun _ => (Run.keeps_update _).bind fun _ =>
    (Run.keeps_rest (Run.keeps_onWork _)).bind fun _ =>
      (Run.keeps_rest (Run.keeps_onWork _)).bind fun _ => keeps_pure _

theorem correction_keeps (a : LevenbergMarquardt R) (c : Setup σ R K) (J : Matrix R K)
    (v : Vec K) : Keeps Run.unworked (a.correction c J v : Stepping σ R K (State R K) _) := by
  apply keeps_get.bind
  intro r
  apply (Run.keeps_evaluate c _).bind
  intro ahead
  split
  · exact keeps_pure _
  · exact (keeps_ofFault _).bind fun _ => (Run.keeps_onWork _).bind fun _ =>
      (keeps_ofFault _).bind fun _ => (Run.keeps_onWork _).bind fun _ => keeps_pure _

theorem correctedStep_keeps (a : LevenbergMarquardt R) (c : Setup σ R K) (J : Matrix R K)
    (v : Vec K) : Keeps Run.unworked (a.correctedStep c J v : Stepping σ R K (State R K) _) := by
  unfold correctedStep
  split
  · exact keeps_pure _
  · apply (a.correction_keeps c J v).bind
    intro w
    cases w with
    | none => exact keeps_pure _
    | some w =>
      dsimp only
      split <;> exact keeps_pure _

theorem attempt_advanced (a : LevenbergMarquardt R) (v du : Vec K) {r s : Run σ R K (State R K)}
    (h : Run.Advanced c r s) :
    (a.attempt c v du).Ends s (fun _ t => Run.Advanced c r t) (fun _ t => Run.Advanced c r t) := by
  simp only [attempt, ends_bind, ends_get, Run.ends_evaluate]
  refine (c.problem.evaluate_answered _ _).mono (fun fu w hfu => ?_) (fun _ _ _ => h.of_eq rfl rfl)
  rw [ends_ofFault]
  refine ⟨fun taken _ => ?_, fun _ _ => h.of_eq rfl rfl⟩
  split
  · exact h.move hfu rfl rfl
  · exact h.of_eq rfl rfl

theorem settle_tested (a : LevenbergMarquardt R) (taken : Bool) {r s : Run σ R K (State R K)}
    (h : Run.Advanced c r s) : (a.settle taken).Ends s (fun _ t => ∃ b, Run.Tested c b r t)
      (fun _ t => Run.Broken c r t) := by
  have hadapt : ∀ t : Run σ R K (State R K), Run.Advanced c r t →
      (do a.adapt; let _ ← Run.check : Stepping σ R K (State R K) Unit).Ends t
        (fun _ t => ∃ b, Run.Tested c b r t) (fun _ t => Run.Broken c r t) := fun t ht => by
    rw [adapt, ends_bind, ends_modify]
    exact Run.Advanced.checked_ends (ht.of_eq rfl rfl)
  unfold settle
  split
  · rw [ends_bind, ends_get]
    exact Ends.bind_keeps (Run.keeps_notice _) (fun _ t ht => hadapt t (h.of_rest ht))
      (fun _ t ht => (h.of_rest ht).broken)
  · exact hadapt s h

theorem proceeds (a : LevenbergMarquardt R) (c : Setup σ R K) :
    (a.strategy : Strategy σ R K (State R K)).Proceeds c := by
  intro r
  simp only [strategy, step, ends_bind, ends_get]
  refine Ends.guard (I := fun t => t.rest = r.rest) (fun _ => ?_) (fun _ => rfl) (fun r₁ h₁ => ?_)
  · exact ((renewJacobian_keeps c).ends r).mono (fun _ _ h => h)
      (fun _ _ h => (Run.Advanced.refl.of_rest h).broken)
  · have hr₁ : Run.Advanced c r r₁ := Run.Advanced.refl.of_rest h₁
    simp only [ends_bind, ends_get, ends_ofFault]
    refine ⟨?_, fun _ _ => hr₁.broken⟩
    intro x _
    rcases x with ⟨J, A⟩
    refine ((velocity_keeps c J A).ends r₁).mono (fun v r₂ h₂ => ?_)
      (fun _ _ h => (hr₁.of_rest h).broken)
    have hr₂ : Run.Advanced c r r₂ := hr₁.of_rest h₂
    refine ((a.correctedStep_keeps c J v).ends r₂).mono (fun du r₃ h₃ => ?_)
      (fun _ _ h => (hr₂.of_unworked h).broken)
    have hr₃ : Run.Advanced c r r₃ := hr₂.of_unworked h₃
    cases du with
    | none =>
      rw [ends_bind, ends_pure]
      exact a.settle_tested false hr₃
    | some du =>
      exact (a.attempt_advanced v du hr₃).bind (fun taken _ h => a.settle_tested taken h)
        (fun _ _ h => h.broken)

end LevenbergMarquardt

namespace SpectralResidual

omit [Entry R K] in
theorem toleranceAt_keeps (a : SpectralResidual σ R K) (x : StepContext R K) :
    Keeps Run.unworked (a.toleranceAt x) := by
  unfold toleranceAt
  split
  · exact Run.keeps_onWork _
  · exact keeps_pure _

/-- A trial carries the residual at its point and the merit of that residual. -/
structure Trial.Stands (a : SpectralResidual σ R K) (c : Setup σ R K) (t : Trial R K) : Prop where
  answered : c.problem.Answered t.u t.fu
  merit : t.merit = SpectralResidual.merit a.exponent (c.options.norm t.fu)

theorem trialAt_ends (a : SpectralResidual σ R K) (u : Vec K) (r : Run σ R K (State R)) :
    (a.trialAt c u).Ends r (fun t s => t.Stands a c ∧ s.unworked = r.unworked)
      (fun _ s => s.unworked = r.unworked) := by
  simp only [trialAt, ends_bind, Run.ends_evaluate, ends_pure]
  exact (c.problem.evaluate_answered u r.work).mono (fun _ _ h => ⟨⟨h, rfl⟩, rfl⟩)
    (fun _ _ _ => rfl)

/-- A search answers a trial that is accepted at some part of the step. -/
theorem search_ends (a : SpectralResidual σ R K) (q : Search R K) (fuel : Nat) (ahead behind : R)
    {t : Trial R K} (ht : t.Stands a c) (r : Run σ R K (State R)) :
    (a.search c q fuel ahead behind t).Ends r
      (fun x s => (x.1.Stands a c ∧ ∃ part, q.accepts a.decrease part x.1.merit) ∧
        s.unworked = r.unworked)
      (fun _ s => s.unworked = r.unworked) := by
  induction fuel generalizing ahead behind t r with
  | zero => simp only [search, ends_bind, ends_get, ends_fail]
  | succ fuel ih =>
    unfold search
    split
    next haccepts => exact ⟨⟨ht, ahead, haccepts⟩, rfl⟩
    next =>
      simp only [ends_bind, ends_ofFault]
      refine ⟨fun nextAhead _ => ?_, fun _ _ => trivial⟩
      refine (a.trialAt_ends _ r).mono ?_ (fun _ _ h => h)
      intro t₁ r₁ htried
      rcases htried with ⟨ht₁, h₁⟩
      split
      next haccepts => exact ⟨⟨ht₁, behind, haccepts⟩, h₁⟩
      next =>
        simp only [ends_bind, ends_ofFault]
        refine ⟨fun nextBehind _ => ?_, fun _ _ => h₁⟩
        refine (a.trialAt_ends _ r₁).mono ?_ (fun _ _ h => h.trans h₁)
        intro t₂ r₂ htried
        rcases htried with ⟨ht₂, h₂⟩
        refine (ih nextAhead nextBehind ht₂ r₂).mono ?_ (fun _ _ h => h.trans (h₂.trans h₁))
        exact fun _ _ h => ⟨h.1, h.2.trans (h₂.trans h₁)⟩

theorem proceeds (a : SpectralResidual σ R K) (c : Setup σ R K) : a.strategy.Proceeds c := by
  intro r
  simp only [strategy, step, ends_bind, ends_get]
  refine ((a.toleranceAt_keeps _).ends r).mono (fun _ r₁ h₁ => ?_)
    (fun _ _ h => (Run.Advanced.refl.of_unworked h).broken)
  have hr₁ : Run.Advanced c r r₁ := Run.Advanced.refl.of_unworked h₁
  refine (a.trialAt_ends _ r₁).mono ?_ (fun _ _ h => (hr₁.of_unworked h).broken)
  intro t r₂ htried
  rcases htried with ⟨ht, h₂⟩
  have hr₂ : Run.Advanced c r r₂ := hr₁.of_unworked h₂
  refine (a.search_ends _ _ _ _ ht r₂).mono ?_ (fun _ _ h => (hr₂.of_unworked h).broken)
  intro x r₃ hsearched
  rcases x with ⟨t, alpha⟩
  rcases hsearched with ⟨⟨ht, -⟩, h₃⟩
  have hr₃ : Run.Advanced c r r₃ := hr₂.of_unworked h₃
  simp only [Run.ends_update, ends_modify, Run.ends_moveTo, ends_pure]
  exact Ends.mono (Run.Advanced.check_ends (hr₃.move ht.answered rfl rfl))
    (fun b _ h => ⟨b, h⟩) (fun _ _ h => h)

end SpectralResidual

theorem Algorithm.proceeds (a : Algorithm σ R K) (c : Setup σ R K) : a.strategy.Proceeds c := by
  cases a with
  | newton a => exact a.proceeds c
  | pseudoTransient a => exact a.proceeds c
  | trustRegion a => exact a.proceeds c
  | levenbergMarquardt a => exact a.proceeds c
  | spectralResidual a => exact a.proceeds c

/-! ## Steps of the loop -/

namespace Run

variable {S : Strategy σ R K X} {r s t : Run σ R K X}

/-- A step of the loop that returns: the strategy has made a step that goes on, one that converges
or one that fails. -/
inductive StepsTo (S : Strategy σ R K X) (c : Setup σ R K) (r : Run σ R K X) :
    Run σ R K X → Prop
  | on (s : Run σ R K X) (stepped : (S.step c).eval r = (.ok (), s))
    (tested : Tested c false r s) : StepsTo S c r (recorded c r.u s)
  | converges (s : Run σ R K X) (stepped : (S.step c).eval r = (.ok (), s))
    (tested : Tested c true r s) : StepsTo S c r (recorded c r.u s)
  | fails (f : Failure R K) (s s' : Run σ R K X)
    (raised : (S.step c).eval r = (.error (.failure f), s)) (broken : Broken c r s)
    (ended : EndedWith c f s s') : StepsTo S c r (recorded c r.u s')

/-- A step of the loop that raises: a fault has left the strategy's step, or it has come up where
the run was to fall back after a failure. -/
inductive Raises (S : Strategy σ R K X) (c : Setup σ R K) (r t : Run σ R K X) : Prop
  | strategy (f : Fault) (raised : (S.step c).eval r = (.error (.fault f), t))
    (broken : Broken c r t)
  | fallback (f : Failure R K) (s : Run σ R K X)
    (raised : (S.step c).eval r = (.error (.failure f), s)) (broken : Broken c r s)
    (rest : t = { s.failed f with work := t.work, printed := t.printed })

end Run

namespace Strategy.Proceeds

variable {S : Strategy σ R K X} {r t : Run σ R K X}

theorem stepsTo (hS : S.Proceeds c) (h : (Run.step S c).eval r = (.ok (), t)) :
    Run.StepsTo S c r t := by
  rcases Run.step_cases h with ⟨s, hs, rfl⟩ | ⟨f, s, s', hs, hend, rfl⟩
  · obtain ⟨b, htested⟩ := (hS r).ok hs
    cases b with
    | true => exact .converges s hs htested
    | false => exact .on s hs htested
  · exact .fails f s s' hs ((hS r).error hs) hend

theorem step_ends (hS : S.Proceeds c) (r : Run σ R K X) :
    (Run.step S c).Ends r (fun _ t => Run.StepsTo S c r t) (fun _ t => Run.Raises S c r t) := by
  have hraises : (Run.step S c).Ends r (fun _ _ => True) (fun _ t => Run.Raises S c r t) := by
    have hrecord : ∀ s : Run σ R K X, (Run.record c r.u).Ends s (fun _ _ => True)
        (fun _ t => Run.Raises S c r t) := fun s => by
      obtain ⟨trace, printed, hs⟩ := Run.record_eval c r.u s
      simp [Ends, hs]
    simp only [Run.step, ends_bind, ends_get, ends_attempt]
    rw [ends_iff]
    refine ⟨fun _ s _ => hrecord s, fun e s hs => ?_⟩
    have hbroken : Run.Broken c r s := (hS r).error hs
    cases e with
    | fault f => exact .strategy f hs hbroken
    | failure f =>
      refine (Run.endWith_ends c f s).bind (fun _ s' _ => hrecord s') (fun _ t ht => ?_)
      rcases ht with ⟨-, -, -, -, hrest⟩
      exact .fallback f s hs hbroken hrest
  exact ends_iff.2 ⟨fun _ _ h => hS.stepsTo h, fun _ _ h => hraises.error h⟩

end Strategy.Proceeds

namespace Run

variable {S : Strategy σ R K X} {r s t : Run σ R K X}

/-- Every step of the loop counts. -/
theorem StepsTo.count (h : StepsTo S c r t) :
    t.steps = r.steps + 1 ∧ t.maxiters = r.maxiters := by
  cases h with
  | on s _ tested =>
    rw [recorded_steps, recorded_maxiters, tested.steps_eq, tested.maxiters_eq]
    exact ⟨rfl, rfl⟩
  | converges s _ tested =>
    rw [recorded_steps, recorded_maxiters, tested.steps_eq, tested.maxiters_eq]
    exact ⟨rfl, rfl⟩
  | fails f s s' _ broken ended =>
    rw [recorded_steps, recorded_maxiters, ended.steps_eq, ended.maxiters_eq,
      steps_of_status broken.status, maxiters_of_status broken.status]
    exact ⟨rfl, rfl⟩

/-- A step that does not stop the run has not failed. -/
theorem StepsTo.error_eq (h : StepsTo S c r t) (ht : t.stopped = false) : t.error = r.error := by
  cases h with
  | on s _ tested => rw [recorded_error, tested.error_eq]
  | converges s _ tested => rw [recorded_error, tested.error_eq]
  | fails f s s' _ _ ended =>
    rw [recorded_stopped, ended.stopped_eq] at ht
    cases ht

/-- A run that goes on has not failed. -/
theorem Leads.error_eq_none (hS : S.Proceeds c) (h : Leads S c r t) (hr : r.error = none)
    (ht : t.stopped = false) : t.error = none := by
  induction h with
  | refl => exact hr
  | headline _ ih => exact ih ht
  | step _ active hstep ih =>
    rw [(hS.stepsTo hstep).error_eq ht]
    exact ih (stopped_of_isActive active)

theorem step_of_ok (h : (S.step c).eval r = (.ok (), s)) :
    (Run.step S c).eval r = (.ok (), recorded c r.u s) := by
  obtain ⟨trace, printed, hrecord⟩ := record_eval c r.u s
  simp [Run.step, eval_bind, h, recorded, hrecord]

omit [Scalar R] [Entry R K] in
theorem isActive_of_stopped (h : r.stopped = true) : r.isActive = false := by simp [isActive, h]

/-- The loop leaves a run alone that is not active. -/
theorem loop_idle (fuel : Nat) (hr : r.isActive = false) :
    (loop S c fuel).Ends r (fun _ t => t = r) (fun _ _ => False) := by
  cases fuel with
  | zero => exact rfl
  | succ fuel =>
    rw [loop, ends_bind, ends_get, hr]
    exact rfl

/-- The loop leaves a run that is not active. -/
theorem loop_inactive (hS : S.Proceeds c) (fuel : Nat) (hfuel : r.maxiters ≤ r.steps + fuel) :
    (loop S c fuel).Ends r (fun _ t => t.isActive = false) (fun _ _ => True) := by
  induction fuel generalizing r with
  | zero =>
    simp only [loop, ends_pure, isActive, Bool.and_eq_false_iff, decide_eq_false_iff_not]
    exact .inr (by omega)
  | succ fuel ih =>
    simp only [loop, ends_bind, ends_get]
    split
    next =>
      rw [ends_bind]
      refine ends_iff.2 ⟨fun _ t ht => ?_, fun _ _ _ => trivial⟩
      obtain ⟨hsteps, hmaxiters⟩ := (hS.stepsTo ht).count
      exact ih (by omega)
    next hidle => simpa using hidle

end Run

end RootFinding
