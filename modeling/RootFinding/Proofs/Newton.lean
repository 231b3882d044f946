import RootFinding.Proofs.Steps
import RootFinding.Proofs.Systems
import RootFinding.Proofs.Traversal
import RootFinding.Proofs.TrustRegion

/-!
# Steps of a Newton run

A step of the Newton strategy taken apart, over any scalars. It gets its Jacobian, an old one or a
new one that is factorised, solves for the direction, searches along it, moves and checks the
iterate.

* `Workspace.model`: the stored Jacobian with the matrix of the linear system and its factors, which
  only the making of a new Jacobian reaches.
* `Newton.Renewed a c r s`: from `r` a step has got its Jacobian, and `s` is left.
* `Newton.Stepped a c r s t`: a step from `r` that returns has solved for its direction in the state
  `s`, has gone a part of it, and has left `t`. `Newton.step_stepped`: so ends every step that
  returns, with the parts of `Newton.Taken` in between.
-/

namespace RootFinding

open Action

variable {σ R K : Type}

/-- The stored Jacobian, how many were made, and the matrix of the linear system with its
factors. -/
def Workspace.model (w : Workspace σ R K) : Option (Matrix R K) × Nat × LinearSystem R K :=
  (w.jacobian, w.jacobians, { w.system with last := none, solves := 0 })

theorem LinearSystem.Ready.of_model {w w' : Workspace σ R K} {A : Matrix R K} {M : SolveMethod}
    (h : w.system.Ready A M) (hw : w'.model = w.model) : w'.system.Ready A M :=
  h.of_eq (congrArg (·.2.2.method) hw) (congrArg (·.2.2.matrix) hw) (congrArg (·.2.2.factors) hw)

variable [Scalar R] [Entry R K]

theorem Problem.evaluate_model (p : Problem σ R K) (u : Vec K) :
    Keeps Workspace.model (p.evaluate u) := by
  apply (keeps_ofFault _).bind
  intro x
  apply Keeps.bind (fun _ => rfl)
  intro _
  dsimp only
  split <;> exact Keeps.bind (fun _ => rfl) fun t => Keeps.bind (fun _ => rfl) fun _ =>
    keeps_pure _

theorem LineSearch.search_model (p : Problem σ R K) (s : LineSearch σ R K) (x : SearchPoint K) :
    Keeps Workspace.model (s.search p.evaluate x) :=
  search_of (Work.keeps_hereditary fun _ _ => rfl) p.evaluate_model s (fun _ _ _ _ => rfl) x

theorem LinearSystem.solve_model {c : Setup σ R K} (hB : c.backend.Frames) (b : Vec K) :
    Keeps Workspace.model (solve c.backend c.problem.evaluate b) :=
  solve_keeps_unsolved (fun _ _ _ _ => rfl) hB c.problem.evaluate_model b

/-- What a solve answers is finite. -/
theorem LinearSystem.solve_finite (B : Backend σ R K) (F : Vec K → Work σ R K (Vec K)) (b : Vec K)
    (w : Workspace σ R K) :
    (solve B F b).Ends w (fun x _ => x.isFinite = true) (fun _ _ => True) := by
  rw [solve, ends_bind, ends_get]
  dsimp only
  split
  · trivial
  · simp only [ends_bind]
    exact ends_true.mono (fun _ w' _ => ends_true.mono (fun x w'' _ =>
      (answer_spec x w'').mono (fun _ _ h => h.1 ▸ h.2.1) fun _ _ _ => trivial)
        fun _ _ _ => trivial) fun _ _ _ => trivial

omit [Entry R K] in
/-- A factorisation reaches neither the stored Jacobian nor the number of those made. -/
theorem LinearSystem.factorize_jacobians (B : Backend σ R K) (A : Matrix R K) :
    Keeps (fun w : Workspace σ R K => (w.jacobian, w.jacobians)) (factorize B A) :=
  keeps_of_ends fun w => factorize_ends_given (fun _ _ _ _ => rfl) B A w

namespace Newton

variable {c : Setup σ R K} {a : Newton σ R K} {r s t : Run σ R K (State σ R K)} {du : Vec K}
  {alpha : R}

/-! ## The Jacobian of a step -/

/-- Whether the policy asks for a new Jacobian in the state `r`. -/
def NeedsJacobian (c : Setup σ R K) (r : Run σ R K (State σ R K)) : Bool :=
  r.ext.jacobians.needsRebuild r.work.jacobian (c.options.norm r.fu) r.ext.previousNorm
    (c.options.norm r.ext.way)

/-- From `r` a step has got its Jacobian, an old one or a new one, and `s` is left. -/
inductive Renewed (a : Newton σ R K) (c : Setup σ R K) (r : Run σ R K (State σ R K)) :
    Run σ R K (State σ R K) → Prop
  | kept (needed : NeedsJacobian c r = false) :
    Renewed a c r { r with ext := { r.ext with previousNorm := c.options.norm r.fu } }
  | built (J : Matrix R K) (w w' : Workspace σ R K) (needed : NeedsJacobian c r = true)
    (made : (c.problem.jacobianAt r.ext.jacobians r.u (some r.fu)).eval r.work = (.ok J, w))
    (factorized :
      (LinearSystem.factorize c.backend (a.systemMatrix J)).eval w = (.ok (), w')) :
    Renewed a c r { r with
      work := w'
      ext := { r.ext with way := r.u.zerosLike, previousNorm := c.options.norm r.fu } }

theorem renew_renewed (r : Run σ R K (State σ R K)) :
    (a.renew c).Ends r (fun _ s => Renewed a c r s) (fun _ _ => True) := by
  simp only [renew, ends_bind, ends_get]
  split
  next hneeded =>
    simp only [ends_bind, Run.ends_onWork, Run.ends_update]
    refine ends_iff.2 ⟨fun J w hmade => ?_, fun _ _ _ => trivial⟩
    refine ends_iff.2 ⟨fun _ w' hfactorized => ?_, fun _ _ _ => trivial⟩
    exact .built J w w' hneeded hmade hfactorized
  next hneeded =>
    rw [Run.ends_update]
    exact .kept (by simpa [NeedsJacobian] using hneeded)

theorem Renewed.rest (h : Renewed a c r s) : s.rest = r.rest := by
  cases h <;> rfl

/-! ## Steps -/

/-- A step from `r` has solved for `du` in the state `s`, has gone the part `alpha` of it, and has
left `t`. -/
structure Stepped (a : Newton σ R K) (c : Setup σ R K) (r s : Run σ R K (State σ R K))
    (t : Run σ R K (State σ R K)) : Prop where
  renew : (a.renew c).eval r = (.ok (), s)
  solved : ∃ b w, a.rightSide s.work.jacobian r.fu = .ok b ∧
    (LinearSystem.solve c.backend c.problem.evaluate b).eval s.work = (.ok t.du, w)
  u : t.u = r.u - t.alpha • t.du
  answered : c.problem.Answered t.u t.fu
  model : c.backend.Frames → t.work.model = s.work.model
  ext : ∃ way, s.ext.way.increase (t.u - r.u) = .ok way ∧ t.ext = { s.ext with way }

theorem Stepped.renewed (h : Stepped a c r s t) : Renewed a c r s :=
  (renew_renewed r).ok h.renew

/-- The parts of such a step in their order, with the workspace `w` after the solve and `w₁` after
the search. -/
structure Taken (a : Newton σ R K) (c : Setup σ R K) (r s : Run σ R K (State σ R K))
    (w w₁ : Workspace σ R K) (t : Run σ R K (State σ R K)) : Prop where
  renew : (a.renew c).eval r = (.ok (), s)
  solved : ∃ b, a.rightSide s.work.jacobian r.fu = .ok b ∧
    (LinearSystem.solve c.backend c.problem.evaluate b).eval s.work = (.ok t.du, w)
  searched : (r.ext.search.search c.problem.evaluate ⟨r.u, r.fu, t.du⟩).eval w = (.ok t.alpha, w₁)
  u : t.u = r.u - t.alpha • t.du
  evaluated : (c.problem.evaluate t.u).eval w₁ = (.ok t.fu, t.work)
  ext : ∃ way, s.ext.way.increase (t.u - r.u) = .ok way ∧ t.ext = { s.ext with way }

theorem Renewed.search (h : Renewed a c r s) : s.ext.search = r.ext.search := by
  cases h <;> rfl

theorem step_taken (r : Run σ R K (State σ R K)) :
    (a.step c).Ends r (fun _ t => ∃ s w w₁, Taken a c r s w w₁ t) (fun _ _ => True) := by
  rw [step, ends_bind]
  refine ends_iff.2 ⟨fun _ s hs => ?_, fun _ _ _ => trivial⟩
  have hrenewed := (renew_renewed r).ok hs
  have hrest := Run.eq_of_rest hrenewed.rest
  have hu : s.u = r.u := by rw [hrest]
  have hfu : s.fu = r.fu := by rw [hrest]
  simp only [direction, advance, ends_bind, ends_get, ends_modify, Run.ends_onWork,
    Run.ends_evaluate, Run.ends_moveTo, Run.ends_update, ends_ofFault]
  refine ⟨fun b hb => ?_, fun _ _ => trivial⟩
  refine ends_iff.2 ⟨fun du w hsolve => ?_, fun _ _ _ => trivial⟩
  refine ends_iff.2 ⟨fun alpha w₁ hsearch => ?_, fun _ _ _ => trivial⟩
  refine ends_iff.2 ⟨fun fu w₂ hevaluate => ?_, fun _ _ _ => trivial⟩
  refine ⟨fun way hway => ?_, fun _ _ => trivial⟩
  refine (Run.check_frame _).mono (fun _ t ht => ?_) (fun _ _ _ => trivial)
  obtain ⟨checker, code, stopped, rfl⟩ := ht
  rw [hfu] at hb
  rw [hu, hfu, hrenewed.search] at hsearch
  rw [hu] at hway hevaluate
  exact ⟨s, w, w₁, hs, ⟨b, hb, hsolve⟩, hsearch, by rw [hu], by rw [hu]; exact hevaluate,
    way, by rw [hu]; exact hway, rfl⟩

theorem Taken.stepped {w w₁ : Workspace σ R K} (h : Taken a c r s w w₁ t) : Stepped a c r s t where
  renew := h.renew
  solved := by
    obtain ⟨b, hb, hsolve⟩ := h.solved
    exact ⟨b, w, hb, hsolve⟩
  u := h.u
  answered := ⟨w₁, t.work, h.evaluated⟩
  model hB := by
    obtain ⟨b, -, hsolve⟩ := h.solved
    calc
      t.work.model = w₁.model := ((c.problem.evaluate_model _).ends w₁).ok h.evaluated
      _ = w.model := ((LineSearch.search_model c.problem _ _).ends w).ok h.searched
      _ = s.work.model := ((LinearSystem.solve_model hB b).ends s.work).ok hsolve
  ext := h.ext

theorem step_stepped (r : Run σ R K (State σ R K)) :
    (a.step c).Ends r (fun _ t => ∃ s, Stepped a c r s t) (fun _ _ => True) := by
  refine (step_taken r).mono (fun _ t h => ?_) (fun _ _ _ => trivial)
  obtain ⟨s, w, w₁, htaken⟩ := h
  exact ⟨s, htaken.stepped⟩

/-- The Jacobian with which a step solves is stored, and it is the one of the linear system. -/
theorem Renewed.built_model {J : Matrix R K} {w w' : Workspace σ R K}
    (made : (c.problem.jacobianAt r.ext.jacobians r.u (some r.fu)).eval r.work = (.ok J, w))
    (factorized :
      (LinearSystem.factorize c.backend (a.systemMatrix J)).eval w = (.ok (), w')) :
    w'.jacobian = some J ∧ w'.jacobians = r.work.jacobians + 1 ∧
      ∃ M, w'.system.Ready (a.systemMatrix J) M := by
  have hkept : (w'.jacobian, w'.jacobians) = (w.jacobian, w.jacobians) :=
    ((LinearSystem.factorize_jacobians c.backend (a.systemMatrix J)).ends w).ok factorized
  obtain ⟨hjacobian, hjacobians⟩ := Prod.mk.inj hkept
  have hbuilt := (c.problem.jacobianAt_spec _ _ _ _).ok made
  exact ⟨hjacobian.trans hbuilt.stored, hjacobians.trans hbuilt.counted, _,
    (LinearSystem.factorize_ready _ _ w).ok factorized⟩

end Newton

end RootFinding
