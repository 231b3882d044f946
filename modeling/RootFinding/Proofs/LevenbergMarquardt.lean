import RootFinding.Proofs.Starts
import RootFinding.Proofs.TrustRegion

/-!
# Steps of a Levenberg-Marquardt run

A step of the Levenberg-Marquardt strategy taken apart, over any scalars. It gets its Jacobian and
the gram matrix, kept or made anew, decides on the step of its velocity, and settles: it adapts the
damping and checks the iterate.

* `LevenbergMarquardt.step_eq`: the three parts of a step.
* `LevenbergMarquardt.Modelled c r J A s`: from `r` a step has got the Jacobian `J` and the matrix
  `A`, and `s` is left.
* `LevenbergMarquardt.Judged a c s taken t`: from `s` a step has come to a verdict, and has left
  `t` to be settled.
* `LevenbergMarquardt.Stepped a c r J A s taken t`: a step has been taken or not, and has left `t`.
  `LevenbergMarquardt.step_stepped`: so ends every step that returns.
* `LevenbergMarquardt.Level`: what holds between the steps, whatever the numbers are.
-/

namespace RootFinding

open Action

variable {σ R K X α T : Type} [Scalar R] [Entry R K]

omit [Scalar R] [Entry R K] in
theorem Run.keeps_ofWork {π : Workspace σ R K → T} {a : Work σ R K α} (h : Keeps π a) :
    Keeps (fun r : Run σ R K X => π r.work) (Run.onWork a) :=
  fun r => h r.work

namespace LevenbergMarquardt

variable {c : Setup σ R K} {a : LevenbergMarquardt R}

/-! ## The parts of a step -/

/-- The Jacobian of a step and its gram matrix, made anew after a step that was taken. -/
def model (c : Setup σ R K) : Stepping σ R K (State R K) (Matrix R K × Matrix R K) := do
  if (← get).ext.renew then renewJacobian c
  Action.ofFault (kept (← get))

/-- Tries the step for a Jacobian and its gram matrix, and answers whether it is taken. -/
def verdict (a : LevenbergMarquardt R) (c : Setup σ R K) (J A : Matrix R K) :
    Stepping σ R K (State R K) Bool := do
  let v ← velocity c J A
  match ← a.correctedStep c J v with
  | some du => a.attempt c v du
  | none => pure false

theorem step_eq (a : LevenbergMarquardt R) (c : Setup σ R K) :
    (a.step c : Stepping σ R K (State R K) Unit) =
      model c >>= fun x => a.verdict c x.1 x.2 >>= a.settle := by
  have hverdict : ∀ x : Matrix R K × Matrix R K,
      (do
        let v ← velocity c x.1 x.2
        let taken ← match ← a.correctedStep c x.1 v with
          | some du => a.attempt c v du
          | none => pure false
        a.settle taken : Stepping σ R K (State R K) Unit) = a.verdict c x.1 x.2 >>= a.settle := by
    intro x
    simp only [verdict, bind_assoc]
    congr 1
    funext v
    congr 1
    funext du
    -- the program goes on inside the match on the corrected step
    cases du <;> rfl
  simp only [step, model, bind_assoc, ← hverdict]
  congr 1
  funext r
  split <;> simp only [bind_assoc] <;> rfl

/-- From `r` a step has got the Jacobian `J` and the matrix `A` for it, and `s` is left. -/
inductive Modelled (c : Setup σ R K) (r : Run σ R K (State R K)) (J A : Matrix R K) :
    Run σ R K (State R K) → Prop
  | kept (renew : r.ext.renew = false) (stored : r.work.jacobian = some J)
    (gram : r.ext.gram = some A) : Modelled c r J A r
  | renewed (w : Workspace σ R K) (renew : r.ext.renew = true)
    (made : (c.problem.jacobianAt r.ext.jacobians r.u (some r.fu)).eval r.work = (.ok J, w))
    (stored : w.jacobian = some J) (gram : A = J.gram) :
    Modelled c r J A { r with
      work := w
      ext := { r.ext with
        gram := some J.gram
        scaling := Vec.zipWith Entry.maximum r.ext.scaling J.gram.diagonal
        renew := false } }

theorem model_modelled (r : Run σ R K (State R K)) :
    (model c).Ends r (fun x s => Modelled c r x.1 x.2 s) (fun _ _ => True) := by
  simp only [model, ends_bind, ends_get]
  split
  next hrenew =>
    simp only [renewJacobian, ends_bind, ends_get, Run.ends_onWork, Run.ends_update, ends_ofFault]
    refine ends_iff.2 ⟨fun J w hmade => ?_, fun _ _ _ => trivial⟩
    have hstored : w.jacobian = some J := ((c.problem.jacobianAt_spec _ _ _ _).ok hmade).stored
    refine ⟨fun x hx => ?_, fun _ _ => trivial⟩
    rw [LevenbergMarquardt.kept, hstored] at hx
    cases hx
    exact .renewed w hrenew hmade hstored rfl
  next hrenew =>
    simp only [ends_bind, ends_get, ends_ofFault]
    refine ⟨fun x hx => ?_, fun _ _ => trivial⟩
    unfold LevenbergMarquardt.kept at hx
    split at hx
    next J A hJ hA =>
      cases hx
      exact .kept (by simpa using hrenew) hJ hA
    next => cases hx

section Modelled

variable {r s : Run σ R K (State R K)} {J A : Matrix R K}

theorem Modelled.rest (h : Modelled c r J A s) : s.rest = r.rest := by
  cases h <;> rfl

theorem Modelled.stored (h : Modelled c r J A s) : s.work.jacobian = some J := by
  cases h with
  | kept _ stored _ => exact stored
  | renewed _ _ _ stored _ => exact stored

theorem Modelled.ext (h : Modelled c r J A s) :
    s.ext = { r.ext with gram := some A, scaling := s.ext.scaling, renew := false } := by
  cases h with
  | kept renew stored gram => rw [← renew, ← gram]
  | renewed w renew made stored gram => rw [gram]

/-- A new Jacobian is made with the workspace that the step begins with. -/
theorem Modelled.made (h : Modelled c r J A s) (hrenew : r.ext.renew = true) :
    ∃ w, (c.problem.jacobianAt r.ext.jacobians r.u (some r.fu)).eval r.work = (.ok J, w) := by
  cases h with
  | kept renew =>
    rw [renew] at hrenew
    cases hrenew
  | renewed w _ made => exact ⟨w, made⟩

end Modelled

/-! ## The velocity -/

/-- All of a run but the workspace, the gradient and the text. -/
def idle (r : Run σ R K (State R K)) :
    (Workspace σ R K → State R K → String → Run σ R K (State R K)) × (Option (Vec K) → State R K) :=
  (r.rest, fun gradient => { r.ext with gradient })

omit [Scalar R] [Entry R K] in
theorem keeps_idle {α : Type} {b : Stepping σ R K (State R K) α} (h : Keeps Run.unworked b) :
    Keeps idle b :=
  fun r => (congrArg idle (Run.eq_of_unworked (h r))).trans rfl

theorem velocity_idle (c : Setup σ R K) (J A : Matrix R K) :
    Keeps idle (velocity c J A : Stepping σ R K (State R K) (Vec K)) :=
  keeps_get.bind fun _ => (keeps_ofFault _).bind fun _ => Keeps.bind (fun _ => rfl) fun _ =>
    (keeps_idle (Run.keeps_onWork _)).bind fun _ =>
      (keeps_idle (Run.keeps_onWork _)).bind fun _ => keeps_pure _

theorem evaluate_stored (c : Setup σ R K) (v : Vec K) :
    Keeps Workspace.jacobian (c.problem.evaluate v) :=
  fun w => congrArg Prod.fst (c.problem.evaluate_keeps v w)

theorem evaluate_given (c : Setup σ R K) (v : Vec K) :
    Keeps (fun w : Workspace σ R K => w.system.matrix) (c.problem.evaluate v) :=
  fun w => congrArg (·.2.matrix) (c.problem.evaluate_keeps v w)

theorem velocity_stored (hB : c.backend.Frames) (J A : Matrix R K) :
    Keeps (fun r : Run σ R K (State R K) => r.work.jacobian) (velocity c J A) :=
  keeps_get.bind fun _ => (keeps_ofFault _).bind fun _ => Keeps.bind (fun _ => rfl) fun _ =>
    (Run.keeps_ofWork (LinearSystem.factorize_keeps _ _)).bind fun _ =>
      (Run.keeps_ofWork (LinearSystem.solve_keeps LinearSystem.spared_jacobian hB
        (evaluate_stored c) _)).bind fun _ => keeps_pure _

/-! ## The verdict -/

/-- What evaluations and solves leave alone, the second order correction leaves alone. -/
theorem correctedStep_ofWork {π : Workspace σ R K → T}
    (hF : ∀ x, Keeps π (c.problem.evaluate x))
    (hsolve : ∀ b, Keeps π (LinearSystem.solve c.backend c.problem.evaluate b)) (J : Matrix R K)
    (v : Vec K) :
    Keeps (fun r : Run σ R K (State R K) => π r.work) (a.correctedStep c J v) := by
  have hcorrection : Keeps (fun r : Run σ R K (State R K) => π r.work) (a.correction c J v) := by
    apply keeps_get.bind
    intro r
    apply (Run.keeps_ofWork (hF _)).bind
    intro ahead
    split
    · exact keeps_pure _
    · exact (keeps_ofFault _).bind fun _ =>
        (Run.keeps_ofWork (J.apply_keeps hF v)).bind fun _ => (keeps_ofFault _).bind fun _ =>
          (Run.keeps_ofWork (hsolve _)).bind fun _ => keeps_pure _
  unfold correctedStep
  split
  · exact keeps_pure _
  · apply hcorrection.bind
    intro w
    cases w with
    | none => exact keeps_pure _
    | some w =>
      dsimp only
      split <;> exact keeps_pure _

theorem correctedStep_stored (hB : c.backend.Frames) (J : Matrix R K) (v : Vec K) :
    Keeps (fun r : Run σ R K (State R K) => r.work.jacobian) (a.correctedStep c J v) :=
  correctedStep_ofWork (evaluate_stored c)
    (LinearSystem.solve_keeps LinearSystem.spared_jacobian hB (evaluate_stored c)) J v

/-- A step from `s` that is taken or not, and leaves `t` to be settled. -/
structure Judged (a : LevenbergMarquardt R) (c : Setup σ R K) (s : Run σ R K (State R K))
    (taken : Bool) (t : Run σ R K (State R K)) : Prop where
  stored : c.backend.Frames → t.work.jacobian = s.work.jacobian
  moves : taken = true → c.problem.Answered t.u t.fu
  stays : taken = false → t.u = s.u ∧ t.fu = s.fu
  ext : ∃ gradient velocity, t.ext = { s.ext with
    gradient, velocity
    loss := if taken then c.options.norm t.fu else s.ext.loss
    factor := if taken then 1.0 / a.decrease else s.ext.factor
    renew := taken || s.ext.renew }

/-- What has been left alone so far, a step that is not taken leaves alone. -/
theorem judged_of_idle {s t : Run σ R K (State R K)} (hidle : idle t = idle s)
    (hstored : c.backend.Frames → t.work.jacobian = s.work.jacobian) :
    Judged a c s false t := by
  have hrest : t.rest = s.rest := congrArg Prod.fst hidle
  have hext : t.ext = { s.ext with gradient := t.ext.gradient } :=
    congrFun (congrArg Prod.snd hidle) t.ext.gradient
  refine ⟨hstored, by simp, fun _ => ?_, t.ext.gradient, s.ext.velocity, hext⟩
  rw [Run.eq_of_rest hrest]
  exact ⟨rfl, rfl⟩

theorem attempt_judged {s r : Run σ R K (State R K)} (hidle : idle r = idle s)
    (hstored : c.backend.Frames → r.work.jacobian = s.work.jacobian) (v du : Vec K) :
    (a.attempt c v du).Ends r (fun taken t => Judged a c s taken t) (fun _ _ => True) := by
  simp only [attempt, ends_bind, ends_get, Run.ends_evaluate, ends_ofFault]
  have hevaluated := (c.problem.evaluate_answered (r.u + du) r.work).and
    ((evaluate_stored c (r.u + du)).ends r.work)
  refine hevaluated.mono (fun fu w h => ?_) (fun _ _ _ => trivial)
  rcases h with ⟨hfu, hw⟩
  refine ⟨fun taken _ => ?_, fun _ _ => trivial⟩
  have hstored' : c.backend.Frames → w.jacobian = s.work.jacobian := fun hB => hw.trans (hstored hB)
  cases taken with
  | true =>
    have hext : r.ext = { s.ext with gradient := r.ext.gradient } :=
      congrFun (congrArg Prod.snd hidle) r.ext.gradient
    refine ⟨hstored', fun _ => hfu, by simp, r.ext.gradient, some v, ?_⟩
    exact congrArg (fun x : State R K => { x with
      velocity := some v
      loss := c.options.norm fu
      factor := 1.0 / a.decrease
      renew := true }) hext
  | false => exact judged_of_idle (t := { r with work := w }) hidle hstored'

theorem verdict_judged (J A : Matrix R K) (s : Run σ R K (State R K)) :
    (a.verdict c J A).Ends s (fun taken t => Judged a c s taken t) (fun _ _ => True) := by
  have hvelocity : (velocity c J A).Ends s
      (fun _ r => idle r = idle s ∧ (c.backend.Frames → r.work.jacobian = s.work.jacobian))
      (fun _ _ => True) :=
    ends_iff.2 ⟨fun _ _ h => ⟨((velocity_idle c J A).ends s).ok h,
      fun hB => ((velocity_stored hB J A).ends s).ok h⟩, fun _ _ _ => trivial⟩
  refine hvelocity.bind (fun v r hr => ?_) (fun _ _ h => h)
  have hstep : (a.correctedStep c J v).Ends r
      (fun _ t => idle t = idle s ∧ (c.backend.Frames → t.work.jacobian = s.work.jacobian))
      (fun _ _ => True) :=
    ends_iff.2 ⟨fun _ _ h => ⟨(((keeps_idle (a.correctedStep_keeps c J v)).ends r).ok h).trans hr.1,
      fun hB => (((correctedStep_stored hB J v).ends r).ok h).trans (hr.2 hB)⟩,
      fun _ _ _ => trivial⟩
  refine hstep.bind (fun du t ht => ?_) (fun _ _ h => h)
  cases du with
  | none => exact judged_of_idle ht.1 ht.2
  | some du => exact attempt_judged ht.1 ht.2 v du

/-! ## Steps -/

/-- Settling adapts the damping and checks the iterate. -/
theorem settle_adapted (taken : Bool) (r : Run σ R K (State R K)) :
    (a.settle taken).Ends r
      (fun _ t => t.u = r.u ∧ t.fu = r.fu ∧ t.work = r.work ∧ t.ext =
        { r.ext with damping := r.ext.damping * r.ext.factor, factor := a.increase })
      (fun _ _ => True) := by
  have hadapt : ∀ t : Run σ R K (State R K),
      (do a.adapt; let _ ← Run.check : Stepping σ R K (State R K) Unit).Ends t
        (fun _ t' => t'.u = t.u ∧ t'.fu = t.fu ∧ t'.work = t.work ∧ t'.ext =
          { t.ext with damping := t.ext.damping * t.ext.factor, factor := a.increase })
        (fun _ _ => True) := by
    intro t
    simp only [adapt, ends_bind, ends_modify]
    refine (Run.check_frame _).mono (fun _ t' ht' => ?_) (fun _ _ _ => trivial)
    rcases ht' with ⟨checker, code, stopped, rfl⟩
    exact ⟨rfl, rfl, rfl, rfl⟩
  unfold settle
  split
  · rw [ends_bind, ends_get, ends_bind, Run.ends_notice]
    exact hadapt (r.printing "notice" _)
  · exact hadapt r

/-- A step from `r` has got the Jacobian `J` and the matrix `A` in the state `s`, has been taken or
not, and has left `t`. -/
structure Stepped (a : LevenbergMarquardt R) (c : Setup σ R K) (r : Run σ R K (State R K))
    (J A : Matrix R K) (s : Run σ R K (State R K)) (taken : Bool) (t : Run σ R K (State R K)) :
    Prop where
  model : (model c).eval r = (.ok (J, A), s)
  verdict : ∃ s', (a.verdict c J A).eval s = (.ok taken, s')
  stored : c.backend.Frames → t.work.jacobian = some J
  moves : taken = true → c.problem.Answered t.u t.fu
  stays : taken = false → t.u = r.u ∧ t.fu = r.fu
  ext : ∃ gradient velocity, t.ext = { s.ext with
    gradient, velocity
    loss := if taken then c.options.norm t.fu else s.ext.loss
    damping := s.ext.damping * (if taken then 1.0 / a.decrease else s.ext.factor)
    factor := a.increase
    renew := taken }

theorem Stepped.modelled {r s t : Run σ R K (State R K)} {J A : Matrix R K} {taken : Bool}
    (h : Stepped a c r J A s taken t) : Modelled c r J A s :=
  (model_modelled r).ok h.model

theorem step_stepped (r : Run σ R K (State R K)) :
    (a.step c).Ends r (fun _ t => ∃ J A s taken, Stepped a c r J A s taken t)
      (fun _ _ => True) := by
  rw [step_eq, ends_bind]
  refine ends_iff.2 ⟨?_, fun _ _ _ => trivial⟩
  rintro ⟨J, A⟩ s hs
  have hmodelled : Modelled c r J A s := (model_modelled r).ok hs
  rw [ends_bind]
  refine ends_iff.2 ⟨fun taken s' hs' => ?_, fun _ _ _ => trivial⟩
  have hjudged : Judged a c s taken s' := (verdict_judged J A s).ok hs'
  refine (settle_adapted taken s').mono (fun _ t ht => ?_) (fun _ _ h => h)
  rcases ht with ⟨hu, hfu, hwork, hext⟩
  obtain ⟨gradient, velocity, hjext⟩ := hjudged.ext
  have hs_renew : s.ext.renew = false := by rw [hmodelled.ext]
  have hs_iterate := Run.eq_of_rest hmodelled.rest
  refine ⟨J, A, s, taken, hs, ⟨s', hs'⟩, fun hB => ?_, fun htaken => ?_, fun hrefused => ?_,
    gradient, velocity, ?_⟩
  · rw [hwork, hjudged.stored hB, hmodelled.stored]
  · rw [hu, hfu]
    exact hjudged.moves htaken
  · obtain ⟨hsu, hsfu⟩ := hjudged.stays hrefused
    rw [hu, hfu, hsu, hsfu, hs_iterate]
    exact ⟨rfl, rfl⟩
  · rw [hext, hjext, hfu, hs_renew, Bool.or_false]

/-- What holds between the steps, whatever the numbers are. -/
structure Level (a : LevenbergMarquardt R) (c : Setup σ R K) (r : Run σ R K (State R K)) :
    Prop where
  size : r.u.size = c.problem.size
  concrete : r.ext.jacobians.concrete = true
  factor : r.ext.factor = a.increase
  loss : r.ext.loss = c.options.norm r.fu

theorem Level.of_start {world : σ} {r : Run σ R K (State R K)}
    (h : Run.start a.strategy c world = .ok r) : Level a c r := by
  have hprepared := start_ok (Run.start_prepared h)
  exact ⟨congrArg Vec.size (Run.start_u h), hprepared.concrete, hprepared.factor, hprepared.loss⟩

theorem Stepped.level {r s t : Run σ R K (State R K)} {J A : Matrix R K} {taken : Bool}
    (hsize : c.problem.size = Tensor.sizeOf c.problem.guess.shape) (hr : Level a c r)
    (h : Stepped a c r J A s taken t) : Level a c (Run.recorded c r.u t) := by
  obtain ⟨gradient, velocity, hext⟩ := h.ext
  have hs := h.modelled.ext
  have hloss : s.ext.loss = r.ext.loss := by rw [hs]
  have hjacobians : s.ext.jacobians = r.ext.jacobians := by rw [hs]
  refine ⟨?_, ?_, ?_, ?_⟩
  · rw [Run.recorded_u]
    cases taken with
    | true => rw [(h.moves rfl).size_eq, hsize]
    | false => rw [(h.stays rfl).1, hr.size]
  · rw [Run.recorded_ext, hext, hjacobians, hr.concrete]
  · rw [Run.recorded_ext, hext]
  · rw [Run.recorded_ext, Run.recorded_fu, hext]
    cases taken with
    | true => rfl
    | false =>
      rw [(h.stays rfl).2]
      exact hloss.trans hr.loss

end LevenbergMarquardt

end RootFinding
