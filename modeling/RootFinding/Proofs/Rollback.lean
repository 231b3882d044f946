import RootFinding.Proofs.SafeModes
import RootFinding.Proofs.Success

/-!
# Steps that fail

A step that fails otherwise than in its check has not yet touched what a run goes on from: the
iterate, its residual, the checks, and of the state of an algorithm what carries over from step to
step.

* `Algorithm.remembered`: the part of the state of an algorithm that carries over.
* `Algorithm.approach_ends`: what a step does before its check. It moves at most to an iterate with
  its residual, and when it fails, nothing has changed yet.
* `Algorithm.step_split`: a step by how far it gets.
* `Algorithm.failure_atomic`: what the loop makes of a step that fails before its check. It leaves
  the run where it was, or takes it to the best iterate in a safe mode.

Zeros of both signs are numerically equal, so a safe mode stays where it is when the best iterate
differs from the present one by the sign of a zero only; `Rollback.zero_stays` is such a run.
-/

namespace RootFinding

open Action

variable {σ R K X T α : Type} [Scalar R] [Entry R K] {c : Setup σ R K}

/-! ## What is held -/

namespace Run

/-- What a run goes on from, with a part `κ` of the state of its strategy. -/
def held (κ : X → T) (r : Run σ R K X) :
    (Vec K × Vec K × Checker R K) × (ReturnCode × Bool × Option (Failure R K) × Nat × Int) × T :=
  (r.core, r.status, κ r.ext)

variable {κ : X → T} {r s : Run σ R K X}

omit [Scalar R] [Entry R K] in
theorem core_of_held (h : s.held κ = r.held κ) : s.core = r.core := congrArg (·.1) h

omit [Scalar R] [Entry R K] in
theorem status_of_held (h : s.held κ = r.held κ) : s.status = r.status := congrArg (·.2.1) h

omit [Scalar R] [Entry R K] in
theorem ext_of_held (h : s.held κ = r.held κ) : κ s.ext = κ r.ext := congrArg (·.2.2) h

omit [Scalar R] [Entry R K] in
theorem held_of_unworked (h : s.unworked = r.unworked) : s.held κ = r.held κ := by
  rw [eq_of_unworked h]
  rfl

omit [Scalar R] [Entry R K] in
theorem keeps_held {a : Stepping σ R K X α} (h : Keeps unworked a) : Keeps (held κ) a :=
  fun r => held_of_unworked (h r)

omit [Scalar R] [Entry R K] in
theorem keeps_held_onWork (a : Work σ R K α) :
    Keeps (held κ) (onWork a : Stepping σ R K X α) :=
  keeps_held (keeps_onWork a)

omit [Scalar R] [Entry R K] in
theorem keeps_held_update {f : X → X} (h : ∀ x, κ (f x) = κ x) :
    Keeps (held κ) (update f : Stepping σ R K X Unit) := fun r => by
  simp only [held, update, eval_modify, h]
  rfl

/-- What has failed by a failure of the solve has left the run where it was. -/
def Unmoved (κ : X → T) (r : Run σ R K X) (e : Thrown R K) (s : Run σ R K X) : Prop :=
  ∀ f, e = .failure f → s.held κ = r.held κ

omit [Scalar R] [Entry R K] in
theorem Unmoved.of_held {e : Thrown R K} (h : s.held κ = r.held κ) : Unmoved κ r e s :=
  fun _ _ => h

omit [Scalar R] [Entry R K] in
theorem Unmoved.of_fault (f : Fault) : Unmoved κ r (.fault f) s := fun _ h => by cases h

theorem Advanced.of_held (h : s.held κ = r.held κ) : Advanced c r s :=
  Advanced.refl.of_eq (core_of_held h) (status_of_held h)

end Run

open Run

/-! ## Approaches -/

namespace Newton

theorem renew_held (a : Newton σ R K) (c : Setup σ R K) :
    Keeps (held fun _ => ()) (a.renew c) := fun r => by
  rw [eq_of_rest (a.renew_keeps c r)]
  rfl

/-- A move fails in the residual of the new point only; what may go wrong after that is a fault. -/
theorem advance_unmoved (du : Vec K) (alpha : R) {r s : Run σ R K (State σ R K)}
    (h : s.held (fun _ => ()) = r.held fun _ => ()) :
    (advance c du alpha).Ends s (fun _ t => Advanced c r t) (Unmoved (fun _ => ()) r) := by
  have hunmoved : (advance c du alpha).Ends s (fun _ _ => True) (Unmoved (fun _ => ()) r) := by
    simp only [advance, ends_bind, ends_get, ends_modify, ends_evaluate]
    refine ends_true.mono (fun fu w _ => ?_) (fun _ _ _ => .of_held h)
    simp only [ends_moveTo, ends_ofFault, ends_update]
    exact ⟨fun _ _ => trivial, fun f _ => .of_fault f⟩
  exact ((advance_advanced du alpha (.of_held h)).and hunmoved).mono (fun _ _ h => h.1)
    (fun _ _ h => h.2)

theorem approach_ends (a : Newton σ R K) (r : Run σ R K (State σ R K)) :
    (a.approach c).Ends r (fun _ s => Advanced c r s) (Unmoved (fun _ => ()) r) := by
  refine Ends.bind_keeps (a.renew_held c) (fun _ r₁ h₁ => ?_) (fun _ _ h => .of_held h)
  refine Ends.bind_keeps (keeps_held (a.direction_keeps c)) (fun du r₂ h₂ => ?_)
    (fun _ _ h => .of_held (h.trans h₁))
  rw [ends_bind, ends_get]
  refine Ends.bind_keeps (keeps_held_onWork _) (fun alpha r₃ h₃ => ?_)
    (fun _ _ h => .of_held (h.trans (h₂.trans h₁)))
  exact advance_unmoved du alpha (h₃.trans (h₂.trans h₁))

end Newton

namespace PseudoTransient

theorem approach_ends (r : Run σ R K (State R K)) :
    (approach c).Ends r (fun _ s => Advanced c r s) (Unmoved id r) := by
  refine Ends.bind_keeps (keeps_held (direction_keeps c)) (fun du r₁ h₁ => ?_)
    (fun _ _ h => .of_held h)
  simp only [ends_bind, ends_get, ends_modify, ends_evaluate, ends_moveTo]
  refine (c.problem.evaluate_answered _ _).mono (fun fu w hfu => ?_)
    (fun _ _ _ => .of_held h₁)
  exact (Advanced.of_held h₁).move hfu rfl rfl

/-- The controller raises faults only. -/
theorem aftermath_ends (converged : Bool) (r : Run σ R K (State R K)) :
    (aftermath converged).Ends r (fun _ t => t.rest = r.rest) (fun e _ => ∃ f, e = .fault f) := by
  unfold aftermath
  split
  · exact rfl
  · refine ((adapt_keeps.ends r).and ?_).mono (fun _ _ h => h.1) (fun _ _ h => h.2)
      (Q := fun _ t => t.rest = r.rest ∧ True)
    simp only [adapt, control, ends_bind, ends_get, ends_ofFault, ends_update, ends_onExt,
      ends_within, ends_mapError]
    refine ⟨fun error _ => ends_true.mono (fun x _ _ => ?_) (fun f _ _ => ⟨f, rfl⟩),
      fun f _ => ⟨f, rfl⟩⟩
    split
    · exact trivial
    · exact trivial

end PseudoTransient

namespace TrustRegion

theorem conclude_unmoved {x : Trial R K} (hx : c.problem.Answered x.u x.fu)
    {r s : Run σ R K (State R K)} (h : s.rest = r.rest) :
    (conclude x).Ends s (fun _ t => Advanced c r t) (Unmoved (fun _ => ()) r) := by
  have hunmoved : (conclude x).Ends s (fun _ _ => True) (Unmoved (fun _ => ()) r) := by
    simp only [conclude, ends_bind, ends_get]
    refine ((keeps_onExt _).ends s).mono (fun accepted s₁ _ => ?_) (fun _ t ht => .of_held ?_)
    · rw [ends_modify]
      split <;> simp only [ends_bind, ends_modify, ends_moveTo, ends_update, ends_get, ends_notice]
    · rw [eq_of_rest (ht.trans h)]
      rfl
  exact ((conclude_advanced hx (Advanced.refl.of_rest h)).and hunmoved).mono (fun _ _ h => h.1)
    (fun _ _ h => h.2)

theorem approach_ends (r : Run σ R K (State R K)) :
    (approach c).Ends r (fun _ s => Advanced c r s) (Unmoved (fun _ => ()) r) := by
  refine (propose_ends r).bind (fun x r₁ h => conclude_unmoved h.1 h.2) (fun _ _ h => .of_held ?_)
  rw [eq_of_rest h]
  rfl

end TrustRegion

namespace LevenbergMarquardt

/-- What carries over from step to step: the damping, its next factor, the last velocity that was
taken and the norm of the residual. -/
def carried (s : State R K) : R × R × Option (Vec K) × R :=
  (s.damping, s.factor, s.velocity, s.loss)

theorem model_held (c : Setup σ R K) :
    Keeps (held carried) (model c : Stepping σ R K (State R K) _) := by
  have hrenew : Keeps (held carried) (renewJacobian c : Stepping σ R K (State R K) Unit) :=
    keeps_get.bind fun _ => (keeps_held_onWork _).bind fun _ => keeps_held_update fun _ => rfl
  exact keeps_get.bind fun _ => hrenew.guard (keeps_get.bind fun _ => keeps_ofFault _)

theorem velocity_held (c : Setup σ R K) (J A : Matrix R K) :
    Keeps (held carried) (velocity c J A : Stepping σ R K (State R K) (Vec K)) := by
  have hgradient : ∀ g : Vec K, Keeps (held carried)
      (update fun s => { s with gradient := some g } : Stepping σ R K (State R K) Unit) :=
    fun g => keeps_held_update fun _ => rfl
  exact keeps_get.bind fun _ => (keeps_ofFault _).bind fun g => (hgradient g).bind fun _ =>
    (keeps_held_onWork _).bind fun _ => (keeps_held_onWork _).bind fun _ => keeps_pure _

theorem attempt_unmoved (a : LevenbergMarquardt R) (v du : Vec K) {r s : Run σ R K (State R K)}
    (h : s.held carried = r.held carried) :
    (a.attempt c v du).Ends s (fun _ t => Advanced c r t) (Unmoved carried r) := by
  have hunmoved : (a.attempt c v du).Ends s (fun _ _ => True) (Unmoved carried r) := by
    simp only [attempt, ends_bind, ends_get, ends_evaluate]
    refine ends_true.mono (fun fu w _ => ?_) (fun _ _ _ => .of_held h)
    rw [ends_ofFault]
    refine ⟨fun taken _ => ?_, fun f _ => .of_fault f⟩
    split <;> exact trivial
  exact ((a.attempt_advanced v du (.of_held h)).and hunmoved).mono (fun _ _ h => h.1)
    (fun _ _ h => h.2)

theorem report_ends (a : LevenbergMarquardt R) (taken : Bool) {r s : Run σ R K (State R K)}
    (h : Advanced c r s) :
    (a.report taken).Ends s (fun _ t => Advanced c r t) (fun _ _ => False) := by
  unfold report
  split <;> exact h.of_eq rfl rfl

theorem approach_ends (a : LevenbergMarquardt R) (r : Run σ R K (State R K)) :
    (a.approach c).Ends r (fun _ s => Advanced c r s) (Unmoved carried r) := by
  refine Ends.bind_keeps (model_held c) (fun x r₁ h₁ => ?_) (fun _ _ h => .of_held h)
  have hverdict : (a.verdict c x.1 x.2).Ends r₁ (fun _ s => Advanced c r s)
      (Unmoved carried r) := by
    refine Ends.bind_keeps (velocity_held c x.1 x.2) (fun v r₂ h₂ => ?_)
      (fun _ _ h => .of_held (h.trans h₁))
    refine Ends.bind_keeps (keeps_held (a.correctedStep_keeps c x.1 v)) (fun du r₃ h₃ => ?_)
      (fun _ _ h => .of_held (h.trans (h₂.trans h₁)))
    have hr₃ : r₃.held carried = r.held carried := h₃.trans (h₂.trans h₁)
    cases du with
    | none => exact Advanced.of_held hr₃
    | some du => exact a.attempt_unmoved v du hr₃
  exact hverdict.bind (fun taken _ h => a.report_ends taken h |>.mono (fun _ _ h => h)
    (fun _ _ h => h.elim)) (fun _ _ h => h)

end LevenbergMarquardt

namespace SpectralResidual

theorem approach_ends (a : SpectralResidual σ R K) (r : Run σ R K (State R)) :
    (a.approach c).Ends r (fun _ s => Advanced c r s) (Unmoved id r) := by
  simp only [approach, ends_bind, ends_get]
  refine ((a.toleranceAt_keeps _).ends r).mono (fun _ r₁ h₁ => ?_)
    (fun _ _ h => .of_held (held_of_unworked h))
  refine (a.trialAt_ends _ r₁).mono ?_ (fun _ _ h => .of_held (held_of_unworked (h.trans h₁)))
  intro t r₂ htried
  have hr₂ : r₂.unworked = r.unworked := htried.2.trans h₁
  refine (a.search_ends _ _ _ _ htried.1 r₂).mono ?_
    (fun _ _ h => .of_held (held_of_unworked (h.trans hr₂)))
  intro x r₃ hsearched
  simp only [ends_update, ends_modify, ends_moveTo]
  exact (Advanced.of_held (held_of_unworked (κ := id) (hsearched.2.trans hr₂))).move
    hsearched.1.1.answered rfl rfl

end SpectralResidual

namespace Algorithm

/-- The part of the state of an algorithm that carries over from step to step. -/
def Memory : Algorithm σ R K → Type
  | newton _ | trustRegion _ => Unit
  | pseudoTransient _ => PseudoTransient.State R K
  | levenbergMarquardt _ => R × R × Option (Vec K) × R
  | spectralResidual _ => SpectralResidual.State R

/-- The sizes and iterates of pseudo-time with their controller, the spectral coefficient with its
history, and the damping with its factor, velocity and loss. -/
def remembered : (a : Algorithm σ R K) → a.State → a.Memory
  | newton _, _ | trustRegion _, _ => ()
  | pseudoTransient _, s | spectralResidual _, s => s
  | levenbergMarquardt _, s => LevenbergMarquardt.carried s

variable {a : Algorithm σ R K} {r s t : Run σ R K a.State}

/-- Before its check a step moves at most to an iterate with its residual, and a failure finds the
run where it was. -/
theorem approach_ends (a : Algorithm σ R K) (c : Setup σ R K) (r : Run σ R K a.State) :
    (a.approach c).Ends r (fun _ s => Advanced c r s) (Unmoved a.remembered r) := by
  cases a with
  | newton a => exact a.approach_ends r
  | pseudoTransient _ => exact PseudoTransient.approach_ends r
  | trustRegion _ => exact TrustRegion.approach_ends r
  | levenbergMarquardt a => exact a.approach_ends r
  | spectralResidual a => exact a.approach_ends r

/-- After its check a step changes neither the iterate nor the outcome, and raises faults only. -/
theorem aftermath_ends (a : Algorithm σ R K) (b : Bool) (r : Run σ R K a.State) :
    (a.aftermath b).Ends r (fun _ t => t.rest = r.rest) (fun e _ => ∃ f, e = .fault f) := by
  cases a with
  | pseudoTransient _ => exact PseudoTransient.aftermath_ends b r
  | newton _ => exact rfl
  | trustRegion _ => exact rfl
  | levenbergMarquardt _ => exact rfl
  | spectralResidual _ => exact rfl

/-- A step that fails does so before its check or in it. -/
theorem step_failure {f : Failure R K}
    (h : (a.strategy.step c).eval r = (.error (.failure f), t)) :
    (a.approach c).eval r = (.error (.failure f), t) ∨
      ∃ s, (a.approach c).eval r = (.ok (), s) ∧ check.eval s = (.error (.failure f), t) := by
  rw [step_parts] at h
  rcases eval_bind_error.1 h with happroach | ⟨⟨⟩, s, happroach, h⟩
  · exact .inl happroach
  · rcases eval_bind_error.1 h with hcheck | ⟨b, s', -, hafter⟩
    · exact .inr ⟨s, happroach, hcheck⟩
    · obtain ⟨g, hg⟩ := (a.aftermath_ends b s').error hafter
      cases hg

/-- A step that returns has made its check. -/
theorem step_returns (h : (a.strategy.step c).eval r = (.ok (), t)) :
    ∃ s b s', (a.approach c).eval r = (.ok (), s) ∧ check.eval s = (.ok b, s') ∧
      t.rest = s'.rest := by
  rw [step_parts] at h
  obtain ⟨⟨⟩, s, happroach, h⟩ := eval_bind_ok.1 h
  obtain ⟨b, s', hcheck, hafter⟩ := eval_bind_ok.1 h
  exact ⟨s, b, s', happroach, hcheck, (a.aftermath_ends b s').ok hafter⟩

end Algorithm

/-! ## Steps of the loop -/

namespace Run

variable {S : Strategy σ R K X} {F : Vec K → Except (Thrown R K) (Vec K)} {f : Failure R K}
  {r s t : Run σ R K X}

/-- A failure leaves a run where it is that is finite and does not keep its best iterate. -/
theorem endWith_stays (hsafe : r.checker.isSafe = false) (hfinite : r.IsFinite) :
    (endWith c f).Ends r (fun _ t => t.core = r.core) (fun _ _ => False) := by
  have hstay : (r.checker.isSafe || !(r.u.isFinite && r.fu.isFinite)) = false := by
    rw [hsafe, hfinite.1, hfinite.2]
    rfl
  simp only [endWith, ends_bind, ends_modify, ends_notice, ends_get]
  rw [if_neg]
  · exact rfl
  · exact fun h => Bool.false_ne_true (hstay.symm.trans h)

/-- What the loop makes of a step of the strategy that has failed. -/
theorem step_failed (hs : (S.step c).eval r = (.error (.failure f), s))
    (ht : (Run.step S c).eval r = (.ok (), t)) :
    ∃ s', (endWith c f).eval s = (.ok (), s') ∧ t = recorded c r.u s' := by
  simp only [Run.step, eval_bind, eval_get, eval_attempt, hs] at ht
  rcases hend : (endWith c f).eval s with ⟨_ | _, s'⟩
  · simp [hend] at ht
  · obtain ⟨trace, printed, hrecord⟩ := record_eval c r.u s'
    simp only [hend, hrecord, Prod.mk.injEq, true_and] at ht
    refine ⟨s', rfl, ?_⟩
    rw [← ht, recorded, hrecord]

/-- A run that goes on has come to finite values. -/
theorem Leads.isFinite (hS : S.Proceeds c) (h : Leads S c r t) (hr : r.IsFinite)
    (ht : t.stopped = false) : t.IsFinite := by
  induction h with
  | refl => exact hr
  | headline _ ih => exact ih ht
  | @step s t _ _ hstep _ =>
    cases hS.stepsTo hstep with
    | on s' _ tested => exact tested.isFinite.of_core (recorded_core c s.u s')
    | converges s' _ tested => exact tested.isFinite.of_core (recorded_core c s.u s')
    | fails g s' s'' _ _ ended =>
      rw [recorded_stopped, ended.stopped_eq] at ht
      cases ht

theorem Turns.follows {o : Options R K} (h : Turns o r t) : t.checker.Follows o := by
  cases h with
  | keeps follows => exact follows
  | converges follows => exact follows
  | fails follows => exact follows

/-- The checks of a run test what the options ask for. -/
theorem Leads.follows (hS : S.Proceeds c) (h : Leads S c r t)
    (hr : r.checker.Follows c.options) : t.checker.Follows c.options :=
  h.invariant hr (fun _ hs => hs) fun _ _ hs _ hstep => ((hS.stepsTo hstep).turns hs).follows

/-- What a run that has started can count on. -/
theorem Reaches.follows {world : σ} (hS : S.Proceeds c) (h : Reaches S c world r) :
    r.checker.Follows c.options := by
  obtain ⟨r₀, hstart, hleads⟩ := h
  refine hleads.follows hS ?_
  rw [start_checker hstart]
  exact ⟨rfl, rfl, rfl, rfl⟩

/-- A run that goes on is at a finite iterate with its residual, which is finite too. -/
theorem Reaches.isFinite {F : Vec K → Except (Thrown R K) (Vec K)} {world : σ} (hS : S.Proceeds c)
    (hF : c.problem.Computes F) (hguess : FiniteAt F c.problem.guess.entries)
    (h : Reaches S c world r) (hr : r.stopped = false) : r.IsFinite := by
  obtain ⟨r₀, hstart, hleads⟩ := h
  exact hleads.isFinite hS (start_fits hF hguess hstart).2 hr

/-- A failure in a safe mode takes a run to its best iterate, or leaves it where it is if the best
iterate is numerically the present one. -/
theorem EndedWith.best {F : Vec K → Except (Thrown R K) (Vec K)} (hF : c.problem.Computes F)
    (h : EndedWith c f r t) (hsafe : r.checker.isSafe = true) (hr : r.Sound F) :
    t.u = r.checker.best ∧ F t.u = .ok t.fu ∨
      r.checker.best.same r.u ∧ t.u = r.u ∧ t.fu = r.fu := by
  have hbest : r.checker.fallback = r.checker.best := if_pos hsafe
  cases h.fellBack with
  | finite hplain =>
    rw [hsafe] at hplain
    cases hplain
  | same hsame hcore =>
    simp only [core, Prod.mk.injEq] at hcore
    exact .inr ⟨hbest ▸ hsame, hcore.1, hcore.2.1⟩
  | unanswered g w hresidual =>
    obtain ⟨fb, hfb, -⟩ := hr.remembers.fallback.residual
    rw [hF.eq_of_eval hresidual] at hfb
    cases hfb
  | moved fu w hresidual hcore =>
    simp only [core, Prod.mk.injEq] at hcore
    rcases hcore with ⟨hu, hfu, -⟩
    refine .inl ⟨hu.trans hbest, ?_⟩
    rw [hu, hfu]
    exact hF.eq_of_eval hresidual

/-- A step that fails leaves the state of the algorithm and the checks as the failure has found
them. In a safe mode the run goes to its best iterate, if that is not the one the step has come to.
-/
theorem Reaches.fails {F : Vec K → Except (Thrown R K) (Vec K)} {world : σ} (hS : S.Proceeds c)
    (hF : c.problem.Computes F) (hguess : FiniteAt F c.problem.guess.entries)
    (hr : Reaches S c world r) (hs : (S.step c).eval r = (.error (.failure f), s)) :
    ∃ t, (Run.step S c).eval r = (.ok (), t) ∧ t.error = some f ∧ t.ext = s.ext ∧
      (c.options.termination.mode.isSafe = true → ¬s.checker.best.same s.u →
        t.u = s.checker.best ∧ F t.u = .ok t.fu) := by
  have hsound : s.Sound F :=
    (hS.isSound hF r ((hS.isSound hF).reaches hF hguess hr).1).error hs
  have hsettings : s.checker.settings = c.options.termination :=
    (((hS r).error hs).follows (hr.follows hS)).settings
  obtain ⟨r₀, hstart, hleads⟩ := hr
  have hsized : s.Sized c := ((hS r).error hs).sized (hleads.sized hS (start_sized hstart))
  obtain ⟨t, hstep, herror⟩ := step_of_failure hs hsized
  obtain ⟨s', hend, rfl⟩ := step_failed hs hstep
  have hended : EndedWith c f s s' := (endWith_ends c f s).ok hend
  refine ⟨_, hstep, herror, ?_, fun hsafe hfar => ?_⟩
  · rw [recorded_ext, hended.ext_eq]
  · have hissafe : s.checker.isSafe = true := by rw [Checker.isSafe, hsettings, hsafe]
    rw [recorded_u, recorded_fu]
    exact (hended.best hF hissafe hsound).resolve_right fun h => hfar h.1

end Run

/-! ## Failures before the check -/

/-- **A step that fails is atomic.**  When a step of a run fails otherwise than in its check, the
loop stores the failure, and of the state of the algorithm what carries over is as it was. A mode
that is not safe leaves the run at its iterate with its residual; a safe one takes it to the best
iterate of its checks with the residual there, unless that one is numerically the present iterate.
-/
theorem Algorithm.failure_atomic (a : Algorithm σ R K) (c : Setup σ R K) (world : σ)
    {F : Vec K → Except (Thrown R K) (Vec K)} (hF : c.problem.Computes F)
    (hguess : FiniteAt F c.problem.guess.entries) (r : Run σ R K a.State)
    (hr : Run.Reaches a.strategy c world r) (hactive : r.isActive) (f : Failure R K)
    (hfails : ∃ s, (a.strategy.step c).eval r = (.error (.failure f), s))
    (hcheck : ¬a.FailsCheck c r (.failure f)) :
    ∃ t, (Run.step a.strategy c).eval r = (.ok (), t) ∧ t.error = some f ∧
      a.remembered t.ext = a.remembered r.ext ∧ t.checker = r.checker ∧
      (c.options.termination.mode.isSafe = false → t.u = r.u ∧ t.fu = r.fu) ∧
      (c.options.termination.mode.isSafe = true →
        t.u = t.checker.best ∧ F t.u = .ok t.fu ∨
          t.checker.best.same r.u ∧ t.u = r.u ∧ t.fu = r.fu) := by
  obtain ⟨s, hs⟩ := hfails
  have hS := a.proceeds c
  have hsized : r.Sized c := by
    obtain ⟨r₀, hstart, hleads⟩ := hr
    exact hleads.sized hS (Run.start_sized hstart)
  obtain ⟨t, ht, herror⟩ := Run.step_of_failure hs (((hS r).error hs).sized hsized)
  obtain ⟨s', hend, hrecorded⟩ := Run.step_failed hs ht
  -- the failure has come up before the check, so it has found the run where it was
  have hheld : s.held a.remembered = r.held a.remembered := by
    rcases step_failure hs with happroach | ⟨s₁, happroach, hfailed⟩
    · exact (a.approach_ends c r).error happroach f rfl
    · exact (hcheck ⟨s₁, s, happroach, hfailed⟩).elim
  have hcore := Run.core_of_held hheld
  have hended : Run.EndedWith c f s s' := (Run.endWith_ends c f s).ok hend
  have hsound : s.Sound F := ((a.isSound hF).reaches hF hguess hr).1.of_core hcore
  have hsettings := (hr.follows hS).settings
  simp only [Run.core, Prod.mk.injEq] at hcore
  rcases hcore with ⟨hu, hfu, hk⟩
  refine ⟨t, ht, herror, ?_, ?_, fun hplain => ?_, fun hsafe => ?_⟩
  · rw [hrecorded, Run.recorded_ext, hended.ext_eq]
    exact Run.ext_of_held hheld
  · rw [hrecorded, Run.recorded_checker, hended.checker_eq, hk]
  · have hfinite : s.IsFinite := by
      have := hr.isFinite hS hF hguess (Run.stopped_of_isActive hactive)
      exact this.of_core (Run.core_of_held hheld)
    have hstays : s'.core = s.core := by
      refine (Run.endWith_stays ?_ hfinite).ok hend
      rw [Checker.isSafe, hk, hsettings, hplain]
    simp only [Run.core, Prod.mk.injEq] at hstays
    rw [hrecorded, Run.recorded_u, Run.recorded_fu]
    exact ⟨hstays.1.trans hu, hstays.2.1.trans hfu⟩
  · have hsafe' : s.checker.isSafe = true := by
      rw [Checker.isSafe, hk, hsettings, hsafe]
    rw [hrecorded, Run.recorded_u, Run.recorded_fu, Run.recorded_checker, hended.checker_eq]
    rcases hended.best hF hsafe' hsound with hbest | ⟨hsame, hstay⟩
    · exact .inl hbest
    · exact .inr ⟨hu ▸ hsame, hstay.1.trans hu, hstay.2.trans hfu⟩

/-! ## Runs on numbers -/

namespace Rollback

section Runs

variable {a : Algorithm Unit Numeral Number} {c : Setup Unit Numeral Number} {n : Nat}
  {r t : Run Unit Numeral Number a.State}

/-- The states of a run after `n` steps and after one more, if it gets there. -/
def runs (a : Algorithm Unit Numeral Number) (c : Setup Unit Numeral Number) (n : Nat) :
    Option (Run Unit Numeral Number a.State × Run Unit Numeral Number a.State) := do
  let r₀ ← (Run.start a.strategy c ()).toOption
  let r := (Run.loop a.strategy c n).eval r₀
  r.1.toOption
  let t := (Run.step a.strategy c).eval r.2
  t.1.toOption
  return (r.2, t.2)

/-- Whether the last step of the run has failed before its check. -/
def gaveUp (r t : Run Unit Numeral Number a.State) (c : Setup Unit Numeral Number) : Bool :=
  r.isActive && t.error.isSome && !((a.approach c).eval r).1.isOk

theorem runs_some (h : runs a c n = some (r, t)) :
    Run.Reaches a.strategy c () r ∧ (Run.step a.strategy c).eval r = (.ok (), t) := by
  unfold runs at h
  rcases hstart : Run.start a.strategy c () with e | r₀
  · simp [hstart, Except.toOption] at h
  rcases hloop : (Run.loop a.strategy c n).eval r₀ with ⟨_ | _, r'⟩
  · simp [hstart, hloop, Except.toOption] at h
  rcases hstep : (Run.step a.strategy c).eval r' with ⟨_ | _, t'⟩
  · simp [hstart, hloop, hstep, Except.toOption] at h
  simp only [hstart, hloop, hstep, Except.toOption, Option.bind_eq_bind, Option.bind_some,
    Option.pure_def, Option.some.injEq, Prod.mk.injEq] at h
  obtain ⟨rfl, rfl⟩ := h
  exact ⟨⟨r₀, hstart, (Run.loop_leads .refl n).ok hloop⟩, hstep⟩

theorem gaveUp_fails (h : runs a c n = some (r, t)) (hup : gaveUp r t c = true) :
    r.isActive ∧ ∃ f, t.error = some f ∧
      (∃ s, (a.strategy.step c).eval r = (.error (.failure f), s)) ∧
        ¬a.FailsCheck c r (.failure f) := by
  obtain ⟨hreaches, hstep⟩ := runs_some h
  obtain ⟨r₀, hstart, hleads⟩ := hreaches
  simp only [gaveUp, Bool.and_eq_true, Bool.not_eq_true'] at hup
  obtain ⟨⟨hactive, herror⟩, happroach⟩ := hup
  obtain ⟨f, hf⟩ := Option.isSome_iff_exists.1 herror
  have hnone : r.error = none := hleads.error_eq_none (a.proceeds c) (Run.start_error hstart)
    (Run.stopped_of_isActive hactive)
  have hsized := hleads.sized (a.proceeds c) (Run.start_sized hstart)
  refine ⟨hactive, f, hf, ?_, ?_⟩
  · exact (Run.stepFails_iff (e := .failure f) (a.proceeds c) hsized hnone).1 ⟨t, hstep, hf⟩
  · rintro ⟨s, s', hs, -⟩
    rw [hs] at happroach
    cases happroach

end Runs

/-- The residual that gives up behind its start as a function. -/
def recedingFunction : Vec Number → Except (Thrown Numeral Number) (Vec Number) :=
  recedingProblem.residualOf fun t =>
    (recedingResidual (t.entries.toList.headD (.real 0.0))).map fun y => ⟨t.shape, .ofList [y]⟩

theorem recedingFunction_computes : recedingProblem.Computes recedingFunction :=
  Problem.computes_returning rfl fun _ _ => rfl

theorem recedingFunction_finite : FiniteAt recedingFunction recedingProblem.guess.entries :=
  ⟨by decide +kernel, .ofList [.real 1.0], by rfl, by decide +kernel⟩

/-- The second step from the start gives up, and the safe mode goes back to the start. -/
theorem receding_returns :
    recedingProblem.Computes recedingFunction ∧
      FiniteAt recedingFunction recedingProblem.guess.entries ∧
      ∃ r f t, Run.Reaches recedingNewton.strategy (recedingSetup 5) () r ∧ r.isActive ∧
        (∃ s, (recedingNewton.strategy.step (recedingSetup 5)).eval r = (.error (.failure f), s)) ∧
        ¬recedingNewton.FailsCheck (recedingSetup 5) r (.failure f) ∧
        (Run.step recedingNewton.strategy (recedingSetup 5)).eval r = (.ok (), t) ∧
        t.u = t.checker.best ∧ recedingFunction t.u = .ok t.fu ∧ t.u.same r.u = false := by
  have h : (runs recedingNewton (recedingSetup 5) 1).any (fun x =>
      gaveUp x.1 x.2 (recedingSetup 5) && !x.2.checker.best.same x.1.u) = true := by
    decide +kernel
  obtain ⟨⟨r, t⟩, hruns, hx⟩ := (Option.any_eq_true _ _).1 h
  simp only [Bool.and_eq_true, Bool.not_eq_true'] at hx
  obtain ⟨hreaches, hstep⟩ := runs_some hruns
  obtain ⟨hactive, f, -, hfails, hcheck⟩ := gaveUp_fails hruns hx.1
  obtain ⟨t', ht', -, -, -, -, hsafe⟩ := Algorithm.failure_atomic recedingNewton (recedingSetup 5)
    () recedingFunction_computes recedingFunction_finite r hreaches hactive f hfails hcheck
  obtain rfl : t' = t := by
    rw [hstep] at ht'
    cases ht'
    rfl
  rcases hsafe rfl with hbest | ⟨hsame, -⟩
  · exact ⟨recedingFunction_computes, recedingFunction_finite, r, f, t', hreaches, hactive, hfails,
      hcheck, hstep, hbest.1, hbest.2, hbest.1 ▸ hx.2⟩
  · rw [hx.2] at hsame
    cases hsame

/-! ### Zeros of both signs -/

/-- A residual that tells the zeros apart, is flat ahead of them and gives up behind. -/
def zeroResidual (x : Number) : Except (Thrown Numeral Number) Number :=
  if x.re < -1.0 then .error (.fault (.raised .value "too far"))
  else .ok (.real (if 0.5 < x.re then 1.0 else if 0.0 < 1.0 / x.re then 2.0 else -1.0))

def zeroProblem : Problem Unit Numeral Number where
  residual := .returning fun t w =>
    ((zeroResidual (t.entries.toList.headD (.real 0.0))).map fun y => ⟨t.shape, .ofList [y]⟩, w)
  guess := ⟨[1], .ofList [.real (-0.0)]⟩
  jacobian := some fun _ w => (.ok (.number (.real 1.0)), w)

/-- The residual of the problem as a function. -/
def zeroFunction : Vec Number → Except (Thrown Numeral Number) (Vec Number) :=
  zeroProblem.residualOf fun t =>
    (zeroResidual (t.entries.toList.headD (.real 0.0))).map fun y => ⟨t.shape, .ofList [y]⟩

/-- The setup of the problem in the safe mode with an absolute bound. -/
def zeroSetup : Setup Unit Numeral Number :=
  { plainSetup zeroProblem with
    options := { (plainSetup zeroProblem).options with
      termination := { Termination.standard with mode := .absSafe } } }

theorem zeroFunction_computes : zeroProblem.Computes zeroFunction :=
  Problem.computes_returning rfl fun _ _ => rfl

theorem zeroFunction_finite : FiniteAt zeroFunction zeroProblem.guess.entries :=
  ⟨by decide +kernel, .ofList [.real (-1.0)], by rfl, by decide +kernel⟩

/-- A run from the negative zero comes to the positive one in two steps, and the third one gives up.
The safe mode stays there, with a residual that is not the one at its best iterate. -/
theorem zero_stays :
    zeroProblem.Computes zeroFunction ∧ FiniteAt zeroFunction zeroProblem.guess.entries ∧
      ∃ r f t fb, Run.Reaches recedingNewton.strategy zeroSetup () r ∧ r.isActive ∧
        (∃ s, (recedingNewton.strategy.step zeroSetup).eval r = (.error (.failure f), s)) ∧
        ¬recedingNewton.FailsCheck zeroSetup r (.failure f) ∧
        (Run.step recedingNewton.strategy zeroSetup).eval r = (.ok (), t) ∧
        zeroFunction t.checker.best = .ok fb ∧ t.fu.same fb = false := by
  have h : (runs recedingNewton zeroSetup 2).any (fun x => gaveUp x.1 x.2 zeroSetup &&
      (zeroFunction x.2.checker.best).toOption.any fun fb => !x.2.fu.same fb) = true := by
    decide +kernel
  obtain ⟨⟨r, t⟩, hruns, hx⟩ := (Option.any_eq_true _ _).1 h
  simp only [Bool.and_eq_true] at hx
  obtain ⟨hreaches, hstep⟩ := runs_some hruns
  obtain ⟨hactive, f, -, hfails, hcheck⟩ := gaveUp_fails hruns hx.1
  obtain ⟨fb, hfb, hdiffers⟩ := (Option.any_eq_true _ _).1 hx.2
  refine ⟨zeroFunction_computes, zeroFunction_finite, r, f, t, fb, hreaches, hactive, hfails,
    hcheck, hstep, ?_, by simpa using hdiffers⟩
  rcases hbest : zeroFunction t.checker.best with e | v
  · simp [hbest, Except.toOption] at hfb
  · simp only [hbest, Except.toOption, Option.some.injEq] at hfb
    rw [hfb]

end Rollback

end RootFinding
