import RootFinding.Proofs.Steady
import RootFinding.Proofs.Passages

/-!
# Runs in other worlds

Functions that answer without a look at the caller's state may still change it. Two runs that share
all but that state stay so as long as they do the same.

* `Workspace.Elsewhere`: workspaces that share all but the caller's state. The routines over a
  problem that is `Steady` and a backend that is `Uniform` keep it.
* `Problem.evaluate_counted`: what an evaluation changes, once a residual has been seen.
* `Run.Elsewhere`: runs that share all but that state. `Run.finish_elsewhere` and
  `Algorithm.outcome_elsewhere`: from the loops of two solves to their outcomes.
* `LevenbergMarquardt.model_elsewhere` and the lemmas after it: the parts of a step that do not
  depend on the settings of the correction.
-/

namespace RootFinding

open Action

variable {σ τ R K X α β : Type}

namespace Workspace

/-- The workspaces have seen a residual, and differ in the caller's own state only. -/
def Elsewhere (w w' : Workspace σ R K) : Prop :=
  w.residualShape.isSome ∧ ∃ world, w' = { w with world }

theorem Elsewhere.refl {w : Workspace σ R K} (h : w.residualShape.isSome) : w.Elsewhere w :=
  ⟨h, w.world, rfl⟩

/-- A change that does not look at the caller's state, and forgets no residual. -/
theorem elsewhere_modify {f : Workspace σ R K → Workspace σ R K}
    (hf : ∀ w world, f { w with world } = { f w with world })
    (hshape : ∀ w, w.residualShape.isSome → (f w).residualShape.isSome) :
    Respects Elsewhere (modify f : Work σ R K PUnit) := by
  rintro w _ ⟨hw, world, rfl⟩
  exact alike_modify ⟨hshape w hw, world, hf w world⟩

theorem elsewhere_hereditary :
    Work.Hereditary fun α (a : Work σ R K α) => Respects Elsewhere a where
  pure := respects_pure
  bind := Respects.bind
  throw := respects_throw
  attempt ha := fun w w' hw => (ha w w' hw).attempt
  mapError _ ha := fun w w' hw => (ha w w' hw).mapError
  warn _ := elsewhere_modify (fun _ _ => rfl) fun _ h => h

theorem elsewhere_call {part : σ → τ} {f : Callable σ R K α β} (hf : RootFinding.Steady part f)
    (x : α) : Respects Elsewhere (Workspace.call f x) := by
  rintro w _ ⟨hw, world, rfl⟩
  exact ⟨(hf x).1 w.world world, hw, (f x world).2, rfl⟩

end Workspace

open Workspace

variable [Scalar R] [Entry R K] {part : σ → τ} {p : Problem σ R K} {B : Backend σ R K}

/-- An evaluation is counted. Once a residual has been seen it changes nothing else but the caller's
state. -/
theorem Problem.evaluate_counted (p : Problem σ R K) (u : Vec K) (w : Workspace σ R K) :
    (p.evaluate u).Ends w
      (fun _ t => t.residualShape.isSome ∧ (w.residualShape.isSome →
        ∃ world, t = { w with world, evaluations := w.evaluations + 1 }))
      (fun _ _ => True) := by
  have hcalled : ∀ {α : Type} (f : Callable σ R K α (Tensor K)) (x : α),
      (Workspace.call f x).Ends { w with evaluations := w.evaluations + 1 }
        (fun t w' => w.residualShape.isSome → ∃ world,
          { w' with residualShape := some (w'.residualShape.getD t.shape) } =
            { w with world, evaluations := w.evaluations + 1 }) (fun _ _ => True) := by
    intro α f x
    rw [Workspace.call, ends_ofFun]
    refine ⟨fun t w' h hseen => ?_, fun _ _ _ => trivial⟩
    obtain ⟨-, rfl⟩ := Prod.mk.inj h
    obtain ⟨shape, hshape⟩ := Option.isSome_iff_exists.1 hseen
    refine ⟨(f x w.world).2, ?_⟩
    rw [hshape]
    rfl
  simp only [Problem.evaluate, ends_bind, ends_ofFault, ends_modify, ends_mapError, ends_pure]
  refine ⟨fun x _ => ?_, fun _ _ => trivial⟩
  split <;> exact (hcalled _ _).mono (fun _ _ h => ⟨rfl, h⟩) (fun _ _ h => h)

theorem Problem.Steady.evaluate_elsewhere (hp : p.Steady part) (u : Vec K) :
    Respects Elsewhere (p.evaluate u) :=
  evaluate_of elsewhere_hereditary (elsewhere_modify (fun _ _ => rfl) fun _ h => h)
    (fun _ => elsewhere_modify (fun _ _ => rfl) fun _ _ => rfl)
    (fun f hf => elsewhere_call (hp.returning f hf)) (fun f hf => elsewhere_call (hp.filling f hf))
    u

theorem Problem.Steady.jacobianAt_elsewhere (hp : p.Steady part) (s : JacobianSettings R)
    (u : Vec K) (fu : Option (Vec K)) : Respects Elsewhere (p.jacobianAt s u fu) := by
  refine (elsewhere_hereditary.mapError _ (rawJacobian_of elsewhere_hereditary.toStraight
    hp.evaluate_elsewhere (fun jac hjac => elsewhere_call (hp.jacobian jac hjac)) s u fu)).bind
      fun J => ?_
  split
  · exact respects_throw _
  · refine Respects.bind ?_ fun _ => respects_pure _
    exact elsewhere_modify (fun _ _ => rfl) fun _ h => h

namespace LinearSystem

omit [Scalar R] [Entry R K] in
theorem elsewhere_change (f : LinearSystem R K → LinearSystem R K) :
    Respects Elsewhere (change f : Work σ R K Unit) :=
  elsewhere_modify (fun _ _ => rfl) fun _ h => h

omit [Scalar R] [Entry R K] in
theorem uncounted_elsewhere :
    Uncounted (Elsewhere : Workspace σ R K → Workspace σ R K → Prop) where
  factors _ := elsewhere_change _
  last _ := elsewhere_change _
  count := elsewhere_change _

omit [Entry R K] in
theorem factorize_elsewhere (B : Backend σ R K) (A : Matrix R K) :
    Respects Elsewhere (factorize B A) := by
  rintro w _ ⟨hw, world, rfl⟩
  exact factorize_alike uncounted_elsewhere rfl fun M => ⟨hw, world, rfl⟩

theorem solve_elsewhere (hp : p.Steady part) (hB : B.Uniform) (b : Vec K) :
    Respects Elsewhere (solve B p.evaluate b) := by
  have happly : ∀ A : Matrix R K, ∀ v, Respects Elsewhere (A.apply p.evaluate v) := fun A v =>
    A.apply_of elsewhere_hereditary.toStraight hp.evaluate_elsewhere v
  refine solve_respects uncounted_elsewhere elsewhere_hereditary.warn (elsewhere_change _) ?_ ?_ b
  · rintro w _ ⟨-, world, rfl⟩
    exact ⟨rfl, rfl, rfl, rfl⟩
  · rintro A s b g w _ ⟨-, world, rfl⟩
    exact hB.gmres (happly A) s b _

end LinearSystem

/-! ## Runs -/

namespace Run

/-- Runs that share everything but the caller's own state. -/
abbrev Elsewhere (r t : Run σ R K X) : Prop := Beside Workspace.Elsewhere (· = ·) r t

variable {r t : Run σ R K X}

omit [Scalar R] [Entry R K] in
theorem Elsewhere.refl (h : r.work.residualShape.isSome) : Elsewhere r r :=
  ⟨r.work, r.ext, .refl h, rfl, rfl⟩

omit [Scalar R] [Entry R K] in
theorem Elsewhere.exists_world (h : Elsewhere r t) :
    ∃ world, t = { r with work := { r.work with world } } := by
  obtain ⟨_, _, ⟨-, world, rfl⟩, rfl, rfl⟩ := h
  exact ⟨world, rfl⟩

omit [Scalar R] [Entry R K] in
/-- A change that leaves the workspace alone and does not look at it. -/
theorem elsewhere_modify {f : Run σ R K X → Run σ R K X}
    (hf : ∀ work r, f { r with work } = { f r with work }) :
    Respects Elsewhere (modify f : Stepping σ R K X PUnit) := by
  rintro r _ ⟨work, _, hwork, rfl, rfl⟩
  have hkept : (f r).work = r.work := (congrArg Run.work (hf r.work r)).trans rfl
  exact alike_modify ⟨work, (f r).ext, by rwa [hkept], rfl, hf work r⟩

omit [Scalar R] [Entry R K] in
theorem elsewhere_update (f : X → X) :
    Respects Elsewhere (update f : Stepping σ R K X Unit) :=
  elsewhere_modify fun _ _ => rfl

omit [Scalar R] [Entry R K] in
/-- An action that reads the run, but not the caller's state. -/
theorem elsewhere_get_bind {f : Run σ R K X → Stepping σ R K X α}
    (hf : ∀ world r, f { r with work := { r.work with world } } = f r)
    (h : ∀ r, Respects Elsewhere (f r)) : Respects Elsewhere (get >>= f) := by
  intro r t hr
  obtain ⟨world, rfl⟩ := hr.exists_world
  rw [alike_get_bind, hf world r]
  exact h r _ _ hr

variable {S S' : Strategy σ R K X} {c : Setup σ R K}

/-- A run that has started has seen a residual. -/
theorem elsewhere_of_start {world : σ} (h : Run.start S c world = .ok r) : Elsewhere r r := by
  obtain ⟨fu, work, system, ext, started⟩ := Run.start_ok h
  obtain ⟨hseen, -⟩ := (c.problem.evaluate_counted _ _).ok started.residual
  refine .refl ?_
  rw [started.eq]
  exact hseen

/-- Runs whose loops end alike are finished alike. -/
theorem finish_elsewhere (hname : S'.name = S.name) (hr : Elsewhere r t)
    (h : ∀ fuel, Alike Elsewhere (loop S c fuel) (loop S' c fuel) (r.headed S) (t.headed S)) :
    Alike Elsewhere (finish S c) (finish S' c) r t := by
  have hclose : Respects Elsewhere (do
      modify fun r => { r with code := r.finalCode }
      let r ← get
      print "solver" (resultText c r)
      Action.ofFault (r.solution c.problem) : Stepping σ R K X (Solution R K)) := by
    refine (elsewhere_modify fun _ _ => rfl).bind fun _ => ?_
    refine elsewhere_get_bind (fun _ _ => rfl) fun _ => ?_
    exact (beside_print _ _).bind fun _ => respects_ofFault _
  obtain ⟨world, rfl⟩ := hr.exists_world
  simp only [finish, alike_get_bind, hname]
  refine (beside_print _ _ _ _ hr).bind_eval (fun _ s s' hs hs' _ => ?_) (fun _ _ h => h)
  obtain rfl : r.headed S = s := (Prod.mk.inj hs).2
  obtain rfl : ({ r with work := { r.work with world } } : Run σ R K X).headed S = s' :=
    (Prod.mk.inj hs').2
  exact (h _).bind (fun _ s s' h => hclose s s' h) (fun _ _ h => h)

end Run

/-- Runs that start alike and are finished alike have the same outcome, but for the caller's
state. -/
theorem Algorithm.outcome_elsewhere {S S' : Strategy σ R K X} {c : Setup σ R K} {world : σ}
    (hstart : Run.start S' c world = Run.start S c world)
    (h : ∀ r, Run.start S c world = .ok r →
      Alike Run.Elsewhere (Run.finish S c) (Run.finish S' c) r r) :
    (outcome S' c world).map (fun o => (o.solution, o.printed, o.warnings)) =
      (outcome S c world).map (fun o => (o.solution, o.printed, o.warnings)) := by
  unfold outcome Strategy.solve
  rw [hstart]
  rcases hr : Run.start S c world with e | r
  · rfl
  obtain ⟨hsame, hworld⟩ := h r hr
  rcases hleft : (Run.finish S c).eval r with ⟨x, t⟩
  rcases hright : (Run.finish S' c).eval r with ⟨y, t'⟩
  rw [hleft, hright] at hsame hworld
  obtain rfl : x = y := hsame
  obtain ⟨world, rfl⟩ := hworld.exists_world
  simp only [bind, Except.bind, hleft, hright]
  cases x <;> rfl

namespace LevenbergMarquardt

variable {c : Setup σ R K} (hp : c.problem.Steady part) (hB : c.backend.Uniform)

include hp in
theorem model_elsewhere :
    Respects Run.Elsewhere (model c : Stepping σ R K (State R K) (Matrix R K × Matrix R K)) := by
  have hrenew : Respects Run.Elsewhere (renewJacobian c : Stepping σ R K (State R K) Unit) :=
    Run.elsewhere_get_bind (fun _ _ => rfl) fun r =>
      (Run.beside_onWork (hp.jacobianAt_elsewhere _ _ _)).bind fun _ => Run.elsewhere_update _
  exact Run.elsewhere_get_bind (fun _ _ => rfl) fun _ => hrenew.guard
    (Run.elsewhere_get_bind (fun _ _ => rfl) fun _ => respects_ofFault _)

include hp hB in
theorem velocity_elsewhere (J A : Matrix R K) :
    Respects Run.Elsewhere (velocity c J A : Stepping σ R K (State R K) (Vec K)) :=
  Run.elsewhere_get_bind (fun _ _ => rfl) fun _ => (respects_ofFault _).bind fun _ =>
    (Run.elsewhere_update _).bind fun _ =>
      (Run.beside_onWork (LinearSystem.factorize_elsewhere _ _)).bind fun _ =>
        (Run.beside_onWork (LinearSystem.solve_elsewhere hp hB _)).bind fun _ => respects_pure _

include hp in
theorem attempt_elsewhere (a : LevenbergMarquardt R) (v du : Vec K) :
    Respects Run.Elsewhere (a.attempt c v du : Stepping σ R K (State R K) Bool) := by
  refine Run.elsewhere_get_bind (fun _ _ => rfl) fun r =>
    (Run.beside_onWork (hp.evaluate_elsewhere _)).bind fun fu =>
      Run.elsewhere_get_bind (fun _ _ => rfl) fun _ => (respects_ofFault _).bind fun taken => ?_
  dsimp only
  split
  · exact (Run.elsewhere_modify fun _ _ => rfl).bind fun _ =>
      (Run.beside_moveTo _ _).bind fun _ => (Run.elsewhere_update _).bind fun _ => respects_pure _
  · exact respects_pure _

theorem settle_elsewhere (a : LevenbergMarquardt R) (taken : Bool) :
    Respects Run.Elsewhere (a.settle taken : Stepping σ R K (State R K) Unit) := by
  have hadapted : Respects Run.Elsewhere (do
      a.adapt
      let _ ← Run.check : Stepping σ R K (State R K) Unit) :=
    (Run.elsewhere_modify fun _ _ => rfl).bind fun _ => Run.beside_check.bind fun _ =>
      respects_pure _
  unfold settle
  split
  · exact Run.elsewhere_get_bind (fun _ _ => rfl) fun _ => (Run.beside_print _ _).bind fun _ =>
      hadapted
  · exact hadapted

end LevenbergMarquardt

end RootFinding
