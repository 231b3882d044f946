import RootFinding.Proofs.Spellings

/-!
# Newton runs with a dense and a sparse Jacobian

Two Newton runs of one problem, whose function for the Jacobian answers a dense matrix in the one and
a sparse one with the same entries in the other.

* `SameJacobian f g`: the two functions answer the same entries, in forms of their own.
* `Run.Abreast ρ r t`: runs that share everything but their workspaces, the texts of their errors
  and what they have printed.
* `Newton.step_abreast`: from runs abreast of each other the steps end alike, and leave them so.
-/

open scoped Matrix

namespace RootFinding

open Action Exact

variable {σ R K X α : Type}

/-! ## Jacobians in two forms -/

section Jacobians

variable [Scalar R] [Entry R K]

/-- Two functions for one Jacobian: they answer the same entries, each in a form of its own, or the
same error, and leave the caller's state alike. -/
def SameJacobian (f g : Callable σ R K (Tensor K) (JacobianValue K)) : Prop :=
  ∀ x world, (g x world).2 = (f x world).2 ∧
    ((∃ e, (f x world).1 = .error e ∧ (g x world).1 = .error e) ∨
      ∃ J J' D, (f x world).1 = .ok J ∧ (g x world).1 = .ok J' ∧
        Matrix.Spells (R := R) J.toMatrix D ∧ Matrix.Spells (R := R) J'.toMatrix D)

omit [Scalar R] [Entry R K] in
/-- The problem with another function for its Jacobian. -/
def Problem.withJacobian (p : Problem σ R K)
    (g : Callable σ R K (Tensor K) (JacobianValue K)) : Problem σ R K :=
  { p with jacobian := some g }

omit [Scalar R] [Entry R K] in
/-- The setup with another function for the Jacobian of its problem. -/
def Setup.withJacobian (c : Setup σ R K)
    (g : Callable σ R K (Tensor K) (JacobianValue K)) : Setup σ R K :=
  { c with problem := c.problem.withJacobian g }

end Jacobians

/-! ## Workspaces -/

section Workspaces

variable {𝕜 : Type} [RCLike 𝕜] [Entry Exact K] [ExactEntry 𝕜 K] {B : Backend σ Exact K}
  {choice : Option SolveMethod} {w w' : Workspace σ Exact K}
  {f g : Callable σ Exact K (Tensor K) (JacobianValue K)}

namespace Workspace

/-- A change that neither reads nor writes the stored Jacobian and the linear system. -/
theorem mirrors_modify {f : Workspace σ Exact K → Workspace σ Exact K}
    (hf : ∀ w jacobian system, f { w with jacobian, system } = { f w with jacobian, system }) :
    Respects (Mirrors 𝕜 B choice) (modify f : Work σ Exact K PUnit) := by
  intro w w' h
  obtain ⟨jacobian, system, hjacobian, hsystem, rfl⟩ := h
  have hkept := hf w w.jacobian w.system
  have hjacobian' : (f w).jacobian = w.jacobian := congrArg (·.jacobian) hkept
  have hsystem' : (f w).system = w.system := congrArg (·.system) hkept
  exact alike_modify ⟨jacobian, system, by rwa [hjacobian'], by rwa [hsystem'], hf w _ _⟩

theorem mirrors_call {α β : Type} (f : Callable σ Exact K α β) (x : α) :
    Respects (Mirrors 𝕜 B choice) (Workspace.call f x : Work σ Exact K β) := by
  intro w w' h
  obtain ⟨jacobian, system, hjacobian, hsystem, rfl⟩ := h
  exact ⟨rfl, jacobian, system, hjacobian, hsystem, rfl⟩

theorem mirrors_hereditary :
    Work.Hereditary fun α (a : Work σ Exact K α) => Respects (Mirrors 𝕜 B choice) a where
  pure := respects_pure
  bind := Respects.bind
  throw := respects_throw
  attempt h := fun w w' hw => (h w w' hw).attempt
  mapError _ h := fun w w' hw => (h w w' hw).mapError
  warn _ := mirrors_modify fun _ _ _ => rfl

end Workspace

open Workspace

theorem Problem.evaluate_mirrors (p : Problem σ Exact K) (u : Vec K) :
    Respects (Mirrors 𝕜 B choice) (p.evaluate u) :=
  evaluate_of mirrors_hereditary (mirrors_modify fun _ _ _ => rfl)
    (fun _ => mirrors_modify fun _ _ _ => rfl) (fun _ _ => mirrors_call _)
    (fun _ _ => mirrors_call _) u

theorem LineSearch.search_mirrors (p : Problem σ Exact K) (s : LineSearch σ Exact K)
    (x : SearchPoint K) : Respects (Mirrors 𝕜 B choice) (s.search p.evaluate x) :=
  search_of mirrors_hereditary p.evaluate_mirrors s (fun _ _ => mirrors_call _) x

/-- The two Jacobians are made alike, with the same entries, or neither is. -/
theorem Problem.jacobianAt_mirrors {p : Problem σ Exact K} (hp : p.jacobian = some f)
    (hsame : SameJacobian f g) (s : JacobianSettings Exact) (u : Vec K) (fu : Option (Vec K))
    (hw : w.Mirrors 𝕜 B choice w') :
    (∃ J J' D v v', (p.jacobianAt s u fu).eval w = (.ok J, v) ∧
        ((p.withJacobian g).jacobianAt s u fu).eval w' = (.ok J', v') ∧
        J.Spells D ∧ J'.Spells D ∧ v.Mirrors 𝕜 B choice v') ∨
      ∃ e v v', (p.jacobianAt s u fu).eval w = (.error e, v) ∧
        ((p.withJacobian g).jacobianAt s u fu).eval w' = (.error e, v') ∧
        v.Mirrors 𝕜 B choice v' := by
  obtain ⟨jacobian, system, hjacobian, hsystem, rfl⟩ := hw
  have hrestructure : (p.withJacobian g).restructure u = p.restructure u := rfl
  have hg : (p.withJacobian g).jacobian = some g := rfl
  simp only [jacobianAt, rawJacobian, hp, hg, analyticJacobian, hrestructure, eval_bind,
    eval_mapError]
  cases hx : p.restructure u with
  | error e =>
    exact .inr ⟨_, _, _, rfl, rfl, jacobian, system, hjacobian, hsystem, rfl⟩
  | ok x =>
    obtain ⟨hworld, ⟨e, hf, hg⟩ | ⟨J, J', D, hf, hg, hJ, hJ'⟩⟩ := hsame x w.world
    · simp only [eval_ofFault_ok, Workspace.call, eval_ofFun, hf, hg, Except.mapError]
      exact .inr ⟨_, _, _, rfl, rfl, jacobian, system, hjacobian, hsystem, by rw [hworld]⟩
    · simp only [eval_ofFault_ok, Workspace.call, eval_ofFun, hf, hg, eval_pure, Except.mapError]
      rw [hJ'.defect hJ]
      cases jacobianDefect? J.toMatrix (fu.map Vec.size) u.size with
      | some d =>
        exact .inr ⟨_, _, _, rfl, rfl, jacobian, system, hjacobian, hsystem, by rw [hworld]⟩
      | none =>
        exact .inl ⟨_, _, D, _, _, rfl, rfl, hJ, hJ', _, system, .some D hJ hJ', hsystem,
          by rw [hworld]⟩

end Workspaces

/-! ## Runs abreast of each other -/

namespace Run

/-- Runs that share everything but their workspaces, the texts of their errors and what they have
printed. -/
def Abreast (ρ : Workspace σ R K → Workspace σ R K → Prop) (r t : Run σ R K X) : Prop :=
  ∃ work error printed, ρ r.work work ∧ error.map Failure.kind = r.error.map Failure.kind ∧
    t = { r with work, error, printed }

variable {ρ : Workspace σ R K → Workspace σ R K → Prop} {S S' : Strategy σ R K X}
  {c c' : Setup σ R K} {r s t : Run σ R K X}

section Constructs

theorem Abreast.refl (h : ρ r.work r.work) : Abreast ρ r r := ⟨_, _, _, h, rfl, rfl⟩

theorem Abreast.work (h : Abreast ρ r t) : ρ r.work t.work := by
  obtain ⟨work, error, printed, hwork, -, rfl⟩ := h
  exact hwork

theorem Abreast.isActive (h : Abreast ρ r t) : t.isActive = r.isActive := by
  obtain ⟨work, error, printed, -, -, rfl⟩ := h
  rfl

/-- Two actions on the workspaces of runs abreast of each other. -/
theorem abreast_onWork {a b : Work σ R K α} (hr : Abreast ρ r t)
    (h : Alike ρ a b r.work t.work) :
    Alike (Abreast ρ) (onWork a : Stepping σ R K X α) (onWork b) r t := by
  obtain ⟨work, error, printed, -, herror, rfl⟩ := hr
  exact ⟨h.1, _, error, printed, h.2, herror, rfl⟩

theorem abreast_renamed {δ : Type} {v : Thrown R K → δ} {a b : Work σ R K α} (hr : Abreast ρ r t)
    (h : Alike ρ (a.mapError v) (b.mapError v) r.work t.work) :
    Alike (Abreast ρ) ((onWork a : Stepping σ R K X α).mapError v)
      ((onWork b : Stepping σ R K X α).mapError v) r t := by
  obtain ⟨work, error, printed, -, herror, rfl⟩ := hr
  exact ⟨h.1, _, error, printed, h.2, herror, rfl⟩

theorem abreast_within {a : Work σ R K α} (h : Respects ρ a) :
    Respects (Abreast ρ) (onWork a : Stepping σ R K X α) :=
  fun _ _ hr => abreast_onWork hr (h _ _ hr.work)

/-- A change of a run that does not look at the workspace, the error and the text. -/
theorem abreast_modify {f : Run σ R K X → Run σ R K X}
    (hf : ∀ work error printed r,
      f { r with work, error, printed } = { f r with work, error, printed }) :
    Respects (Abreast ρ) (modify f : Stepping σ R K X PUnit) := by
  intro r t hr
  obtain ⟨work, error, printed, hwork, herror, rfl⟩ := hr
  have hkept := hf r.work r.error r.printed r
  have hwork' : (f r).work = r.work := congrArg (·.work) hkept
  have herror' : (f r).error = r.error := congrArg (·.error) hkept
  exact alike_modify
    ⟨work, error, printed, by rwa [hwork'], by rw [herror', herror], hf work error printed r⟩

/-- An action that reads the run, but not the workspace, the error and the text. -/
theorem abreast_get_bind {f : Run σ R K X → Stepping σ R K X α}
    (hf : ∀ work error printed r, f { r with work, error, printed } = f r)
    (h : ∀ r, Respects (Abreast ρ) (f r)) : Respects (Abreast ρ) (get >>= f) := by
  intro r t hr
  obtain ⟨work, error, printed, hwork, herror, rfl⟩ := hr
  rw [alike_get_bind, hf work error printed r]
  exact h r _ _ ⟨work, error, printed, hwork, herror, rfl⟩

end Constructs

section Prints

variable [Scalar R]

/-- Runs abreast of each other may print different lines. -/
theorem abreast_print (hr : Abreast ρ r t) (style text text' : String) :
    Alike (Abreast ρ) (print style text : Stepping σ R K X Unit) (print style text') r t := by
  obtain ⟨work, error, printed, hwork, herror, rfl⟩ := hr
  exact ⟨rfl, work, error, _, hwork, herror, rfl⟩

end Prints

variable [Scalar R] [Entry R K]

theorem abreast_check : Respects (Abreast ρ) (check : Stepping σ R K X Bool) := by
  refine abreast_get_bind (fun _ _ _ _ => rfl) fun r => Respects.bind ?_ fun converged => ?_
  · intro r' t hr
    obtain ⟨work, error, printed, hwork, herror, rfl⟩ := hr
    exact ⟨rfl, work, error, printed, hwork, herror, rfl⟩
  · exact Respects.guard (abreast_modify fun _ _ _ _ => rfl) (respects_pure _)

/-- Runs that are ended with failures of one kind. -/
theorem abreast_endWith (hF : ∀ u, Respects ρ (c.problem.evaluate u)) {f f' : Failure R K}
    (hkind : f'.kind = f.kind) (hr : Abreast ρ r t) :
    Alike (Abreast ρ) (endWith c f : Stepping σ R K X Unit) (endWith c f') r t := by
  have hfallBack : Respects (Abreast ρ) (fallBack c : Stepping σ R K X Unit) := by
    refine abreast_get_bind (fun _ _ _ _ => rfl) fun r => ?_
    dsimp only
    split
    · exact respects_pure _
    · have hattempt : Respects (Abreast ρ) (attempt (evaluate c r.checker.fallback) :
          Stepping σ R K X (Except (Thrown R K) (Vec K))) :=
        fun r t hr => (abreast_within (hF _) r t hr).attempt
      refine hattempt.bind fun x => ?_
      rcases x with (f | e) | fu
      · exact respects_pure _
      · exact respects_throw _
      · exact abreast_modify fun _ _ _ _ => rfl
  have hclose : Respects (Abreast ρ) (do
      let r ← get
      if r.checker.isSafe || !(r.u.isFinite && r.fu.isFinite) then fallBack c :
        Stepping σ R K X Unit) := by
    refine abreast_get_bind (fun _ _ _ _ => rfl) fun r => ?_
    split
    · exact hfallBack
    · exact respects_pure _
  have hcode : f'.returnCode = f.returnCode := congrArg FailureKind.returnCode hkind
  have hfailed : Alike (Abreast ρ)
      (modify fun r => { r with error := some f, code := f.returnCode, stopped := true } :
        Stepping σ R K X PUnit)
      (modify fun r => { r with error := some f', code := f'.returnCode, stopped := true }) r t := by
    obtain ⟨work, error, printed, hwork, -, rfl⟩ := hr
    refine alike_modify ⟨work, some f', printed, hwork, ?_, by rw [hcode]⟩
    exact congrArg some hkind
  refine hfailed.bind (fun _ s s' h => ?_) (fun _ _ h => h)
  exact (abreast_print h _ _ _).bind (fun _ s s' h => hclose s s' h) (fun _ _ h => h)

theorem abreast_record (c : Setup σ R K) (before : Vec K) :
    Respects (Abreast ρ) (record c before : Stepping σ R K X Unit) := by
  refine (abreast_modify fun _ _ _ _ => rfl).bind fun _ => ?_
  refine abreast_get_bind (fun _ _ _ _ => rfl) fun r => ?_
  exact Respects.guard (abreast_modify fun _ _ _ _ => rfl) fun _ _ h => abreast_print h _ _ _

/-- Steps of the loop end alike if those of the strategies do, but for the texts of their errors.
The second setup has another function for its Jacobian. -/
theorem step_abreast {g : Callable σ R K (Tensor K) (JacobianValue K)}
    (hF : ∀ u, Respects ρ (c.problem.evaluate u)) (hr : Abreast ρ r t)
    (h : Alike (Abreast ρ) ((S.step c).mapError Thrown.verdict)
      ((S.step (c.withJacobian g)).mapError Thrown.verdict) r t) :
    Alike (Abreast ρ) (step S c) (step S (c.withJacobian g)) r t := by
  have hu : t.u = r.u := by
    obtain ⟨work, error, printed, -, -, rfl⟩ := hr
    rfl
  have hrecord : ∀ s s', Abreast ρ s s' → Alike (Abreast ρ)
      (record c r.u : Stepping σ R K X Unit) (record (c.withJacobian g) r.u) s s' :=
    abreast_record c r.u
  have hendWith : ∀ {f f' : Failure R K} s s', f'.kind = f.kind → Abreast ρ s s' →
      Alike (Abreast ρ) (endWith c f : Stepping σ R K X Unit) (endWith (c.withJacobian g) f') s s' :=
    fun s s' hkind hs => abreast_endWith hF hkind hs
  simp only [step, alike_get_bind, hu]
  rcases hleft : (S.step c).eval r with ⟨x, s⟩
  rcases hright : (S.step (c.withJacobian g)).eval t with ⟨y, s'⟩
  simp only [Alike, eval_mapError, hleft, hright] at h
  obtain ⟨hxy, hs⟩ := h
  simp only [Alike, eval_bind, eval_attempt, hleft, hright]
  rcases x with (f | e) | _ <;> rcases y with (f' | e') | _
  case ok.ok => exact hrecord s s' hs
  case error.failure.error.failure =>
    have hkind : f'.kind = f.kind := (Sum.inl.inj (Except.error.inj hxy)).symm
    have hended := (hendWith s s' hkind hs).bind (fun _ s s' h => hrecord s s' h) (fun _ _ h => h)
    simpa only [Alike, eval_bind] using hended
  case error.fault.error.fault =>
    obtain rfl : e = e' := Sum.inr.inj (Except.error.inj hxy)
    exact ⟨rfl, hs⟩
  all_goals cases hxy

end Run

/-! ## Newton steps -/

namespace Newton

variable {𝕜 : Type} [RCLike 𝕜] [Entry Exact K] [ExactEntry 𝕜 K] {a : Newton σ Exact K}
  {c : Setup σ Exact K} {choice : Option SolveMethod} {world : σ}
  {f g : Callable σ Exact K (Tensor K) (JacobianValue K)}
  {r t : Run σ Exact K (State σ Exact K)}

variable (𝕜) in
/-- A Jacobian that the step from `r` makes is one on which the direct methods agree. -/
def Comparable (c : Setup σ Exact K) (r : Run σ Exact K (State σ Exact K)) : Prop :=
  ∀ J w D, NeedsJacobian c r = true →
    (c.problem.jacobianAt r.ext.jacobians r.u (some r.fu)).eval r.work = (.ok J, w) →
      J.toDense? = some D → D.Comparable 𝕜 c.backend

theorem needsJacobian_abreast
    (hr : r.Abreast (Workspace.Mirrors 𝕜 c.backend choice) t) :
    NeedsJacobian (c.withJacobian g) t = NeedsJacobian c r := by
  obtain ⟨work, error, printed, ⟨jacobian, system, hjacobian, -, rfl⟩, -, rfl⟩ := hr
  simp only [NeedsJacobian, JacobianSettings.needsRebuild, hjacobian.isNone]
  rfl

/-- Both steps get their Jacobian alike. -/
theorem renew_abreast (ha : a.form = .direct) (hB : c.backend.Pivots 𝕜)
    (hc : c.problem.jacobian = some f) (hsame : SameJacobian f g)
    (hchoice : choice ≠ some .gmres) (hr : r.Abreast (Workspace.Mirrors 𝕜 c.backend choice) t)
    (hcomparable : choice = none → Comparable 𝕜 c r) :
    Alike (Run.Abreast (Workspace.Mirrors 𝕜 c.backend choice))
      ((a.renew c).mapError Thrown.verdict)
      ((a.renew (c.withJacobian g)).mapError Thrown.verdict) r t := by
  have hneeds : NeedsJacobian (c.withJacobian g) t = NeedsJacobian c r := needsJacobian_abreast hr
  obtain ⟨work, error, printed, hwork, herror, rfl⟩ := id hr
  refine alike_renamed_get ?_
  change Alike _ (Action.mapError _ (if NeedsJacobian c r = true then _ else _))
    (Action.mapError _ (if NeedsJacobian (c.withJacobian g) _ = true then _ else _)) r _
  rw [hneeds]
  have hkeep : ∀ (x : Exact) s s', Run.Abreast (Workspace.Mirrors 𝕜 c.backend choice) s s' →
      Alike (Run.Abreast (Workspace.Mirrors 𝕜 c.backend choice))
        ((Run.update fun s => { s with previousNorm := x } :
          Stepping σ Exact K (State σ Exact K) Unit).mapError Thrown.verdict)
        ((Run.update fun s => { s with previousNorm := x }).mapError Thrown.verdict) s s' :=
    fun x s s' h => (Run.abreast_modify (fun _ _ _ _ => rfl) s s' h).mapError
  split
  next hneeded =>
    have hmade := Problem.jacobianAt_mirrors hc hsame r.ext.jacobians r.u (some r.fu) hwork
    rcases hmade with ⟨J, J', D, v, v', hv, hv', hJ, hJ', hmirrors⟩ | ⟨e, v, v', hv, hv', hmirrors⟩
    · refine alike_renamed_ok (Run.onWork_of_eval hv) (Run.onWork_of_eval hv') ?_
      have hsystem : ∀ J : Matrix Exact K, a.systemMatrix J = J := fun J => by
        rw [systemMatrix, ha]
      rw [hsystem, hsystem]
      have hfactorized := LinearSystem.factorize_mirrors hB hchoice hmirrors hJ hJ' fun hnone =>
        hcomparable hnone J v D hneeded hv hJ.entries
      have hmade : Run.Abreast (Workspace.Mirrors 𝕜 c.backend choice) { r with work := v }
          { r with work := v', error, printed } := ⟨v', error, printed, hmirrors, herror, rfl⟩
      refine (Run.abreast_renamed hmade hfactorized).renamed_bind (fun _ s s' h => ?_)
        (fun _ _ h => h)
      have hway := Run.abreast_modify (fun _ _ _ _ => rfl) s s' h
        (f := fun s => { s with ext := { s.ext with way := r.u.zerosLike } })
      exact hway.mapError.renamed_bind (fun _ s s' h => hkeep _ s s' h) (fun _ _ h => h)
    · exact alike_renamed_error (Run.onWork_of_eval hv) (Run.onWork_of_eval hv') rfl
        ⟨v', error, printed, hmirrors, herror, rfl⟩
  next => exact hkeep _ _ _ hr

/-- Both steps have the same direction. -/
theorem direction_abreast (ha : a.form = .direct) (hB : c.backend.Pivots 𝕜)
    (hchoice : choice ≠ some .gmres) (hr : r.Abreast (Workspace.Mirrors 𝕜 c.backend choice) t) :
    Alike (Run.Abreast (Workspace.Mirrors 𝕜 c.backend choice))
      (a.direction c) (a.direction (c.withJacobian g)) r t := by
  obtain ⟨work, error, printed, hwork, herror, rfl⟩ := id hr
  have hside : ∀ J : Option (Matrix Exact K), a.rightSide J r.fu = .ok r.fu := fun J => by
    simp only [rightSide, ha]
  simp only [direction, alike_get_bind, hside]
  have hsolve := LinearSystem.solve_mirrors hB hchoice c.problem.evaluate
    (c.withJacobian g).problem.evaluate r.fu hwork
  exact Run.abreast_onWork hr hsolve

theorem advance_abreast {ρ : Workspace σ Exact K → Workspace σ Exact K → Prop}
    (hF : ∀ u, Respects ρ (c.problem.evaluate u)) (du : Vec K) (alpha : Exact) :
    Respects (Run.Abreast ρ) (advance c du alpha : Stepping σ Exact K (State σ Exact K) Unit) := by
  refine Run.abreast_get_bind (fun _ _ _ _ => rfl) fun r => ?_
  refine (Run.abreast_modify fun _ _ _ _ => rfl).bind fun _ => ?_
  refine (Run.abreast_within (hF _)).bind fun fu => ?_
  refine (Run.abreast_modify fun _ _ _ _ => rfl).bind fun _ => ?_
  refine Run.abreast_get_bind (fun _ _ _ _ => rfl) fun r => ?_
  exact (respects_ofFault _).bind fun _ => Run.abreast_modify fun _ _ _ _ => rfl

/-- What a step does once it has its direction. -/
theorem pursue_abreast (c : Setup σ Exact K) (du : Vec K) :
    Respects (Run.Abreast (Workspace.Mirrors 𝕜 c.backend choice)) (do
      let r ← get
      let alpha ← Run.onWork (r.ext.search.search c.problem.evaluate ⟨r.u, r.fu, du⟩)
      advance c du alpha
      let _ ← Run.check : Stepping σ Exact K (State σ Exact K) Unit) := by
  refine Run.abreast_get_bind (fun _ _ _ _ => rfl) fun r => ?_
  refine (Run.abreast_within (LineSearch.search_mirrors c.problem _ _)).bind fun alpha => ?_
  exact (advance_abreast c.problem.evaluate_mirrors du alpha).bind fun _ =>
    Run.abreast_check.bind fun _ => respects_pure _

/-- From runs abreast of each other the steps end alike, but for the texts of their errors. -/
theorem step_abreast (ha : a.form = .direct) (hB : c.backend.Pivots 𝕜)
    (hc : c.problem.jacobian = some f) (hsame : SameJacobian f g)
    (hchoice : choice ≠ some .gmres) (hr : r.Abreast (Workspace.Mirrors 𝕜 c.backend choice) t)
    (hcomparable : choice = none → Comparable 𝕜 c r) :
    Alike (Run.Abreast (Workspace.Mirrors 𝕜 c.backend choice)) (Run.step a.strategy c)
      (Run.step a.strategy (c.withJacobian g)) r t := by
  refine Run.step_abreast c.problem.evaluate_mirrors hr ?_
  change Alike _ ((a.step c).mapError _) ((a.step (c.withJacobian g)).mapError _) r t
  refine (renew_abreast ha hB hc hsame hchoice hr hcomparable).renamed_bind (fun _ s s' h => ?_)
    (fun _ _ h => h)
  have hdirection := direction_abreast (g := g) ha hB hchoice h
  exact (hdirection.bind (fun du s s' h => pursue_abreast c du s s' h) (fun _ _ h => h)).mapError

/-! ## Whole runs -/

/-- Both runs start in the same state. -/
theorem start_withJacobian (hc : c.problem.jacobian = some f) :
    Run.start a.strategy (c.withJacobian g) world = Run.start a.strategy c world := by
  have hstart : ∀ u fu, a.strategy.start (c.withJacobian g) u fu = a.strategy.start c u fu := by
    intro u fu
    simp [strategy, start, Setup.withJacobian, Problem.withJacobian, hc]
  unfold Run.start
  simp only [hstart]
  rfl

/-- The state that both start in is abreast of itself. -/
theorem abreast_of_start (h : Run.start a.strategy c world = .ok r) :
    r.Abreast (Workspace.Mirrors 𝕜 c.backend a.choice.asked) r := by
  have hunbuilt := Unbuilt.of_start h
  obtain ⟨⟨krylov, hsystem⟩, -⟩ := SystemChoice.system_ok (start_ok (Run.start_prepared h)).system
  have hfresh : r.work.system.method = a.choice.asked ∧ r.work.system.matrix = none := by
    rw [hsystem]
    exact ⟨rfl, rfl⟩
  refine .refl ⟨_, _, ?_, .empty hfresh.1 hfresh.2 rfl, rfl⟩
  rw [hunbuilt.jacobian]
  exact .none

/-- The two runs stay abreast of each other. -/
theorem loop_abreast (ha : a.form = .direct) (hB : c.backend.Pivots 𝕜)
    (hc : c.problem.jacobian = some f) (hsame : SameJacobian f g)
    (hchoice : choice ≠ some .gmres)
    (hcomparable : choice = none → ∀ r, Run.Reaches a.strategy c world r → r.isActive →
      Comparable 𝕜 c r) (fuel : Nat) (hreached : Run.Reaches a.strategy c world r)
    (hr : r.Abreast (Workspace.Mirrors 𝕜 c.backend choice) t) :
    Alike (Run.Abreast (Workspace.Mirrors 𝕜 c.backend choice)) (Run.loop a.strategy c fuel)
      (Run.loop a.strategy (c.withJacobian g) fuel) r t := by
  induction fuel generalizing r t with
  | zero => exact alike_pure hr _
  | succ fuel ih =>
    simp only [Run.loop, alike_get_bind, hr.isActive]
    split
    next active =>
      have hstep := step_abreast ha hB hc hsame hchoice hr fun hnone =>
        hcomparable hnone r hreached active
      refine hstep.bind_eval (fun _ s s' hs _ hss => ?_) (fun _ _ h => h)
      obtain ⟨r₀, hstart, before⟩ := hreached
      exact ih ⟨r₀, hstart, before.step active hs⟩ hss
    next => exact alike_pure hr _

end Newton

/-- A solution without the texts of its failure, with the kind of that. -/
def Solution.outline (s : Solution R K) : Solution R K × Option FailureKind :=
  ({ s with error := none }, s.error.map Failure.kind)

section Finish

variable {𝕜 : Type} [RCLike 𝕜] [Entry Exact K] [ExactEntry 𝕜 K] {B : Backend σ Exact K}
  {choice : Option SolveMethod} {S : Strategy σ Exact K X} {c : Setup σ Exact K}
  {g : Callable σ Exact K (Tensor K) (JacobianValue K)} {r t : Run σ Exact K X}

/-- Runs abreast of each other show the same solution. -/
theorem Run.Abreast.solution (h : r.Abreast (Workspace.Mirrors 𝕜 B choice) t)
    (p : Problem σ Exact K) :
    (t.solution p).map Solution.outline = (r.solution p).map Solution.outline := by
  obtain ⟨work, error, printed, ⟨jacobian, system, -, hsystem, rfl⟩, herror, rfl⟩ := h
  obtain ⟨method, matrix, factors, rfl⟩ := hsystem.exists_eq
  unfold Run.solution
  cases p.toUser r.u p.guess.shape with
  | error e => rfl
  | ok u =>
    simp only [bind, Except.bind]
    cases p.residualToUser r.work.residualShape r.fu with
    | error e => rfl
    | ok residual =>
      simp only [pure, Except.pure, Except.map, Solution.outline, herror]
      rfl

/-- Runs whose loops end alike are finished with the same solution. -/
theorem Run.finish_abreast (hr : r.Abreast (Workspace.Mirrors 𝕜 B choice) t)
    (h : ∀ fuel, Alike (Run.Abreast (Workspace.Mirrors 𝕜 B choice)) (loop S c fuel)
      (loop S (c.withJacobian g) fuel) (r.headed S) (t.headed S)) :
    Alike (Run.Abreast (Workspace.Mirrors 𝕜 B choice)) (Solution.outline <$> finish S c)
      (Solution.outline <$> finish S (c.withJacobian g)) r t := by
  have hfuel : (t.maxiters - t.steps).toNat = (r.maxiters - r.steps).toNat := by
    obtain ⟨work, error, printed, -, -, rfl⟩ := hr
    rfl
  have hclose : Respects (Run.Abreast (Workspace.Mirrors 𝕜 B choice)) (do
      modify fun r => { r with code := r.finalCode }
      let r ← get
      print "solver" (resultText c r)
      Solution.outline <$> Action.ofFault (r.solution c.problem) :
        Stepping σ Exact K X (Solution Exact K × Option FailureKind)) := by
    refine (abreast_modify fun _ _ _ _ => rfl).bind fun _ => fun r t hr => ?_
    have hshow : ∀ x : Except Fault (Solution Exact K),
        (Solution.outline <$> Action.ofFault x : Stepping σ Exact K X _) =
          Action.ofFault (x.map Solution.outline) := fun x => by cases x <;> rfl
    rw [alike_get_bind, hshow, hshow, hr.solution]
    exact (abreast_print hr _ _ _).bind (fun _ s s' h => respects_ofFault _ s s' h)
      (fun _ _ h => h)
  simp only [finish, map_bind, alike_get_bind, hfuel]
  refine (abreast_print hr _ _ _).bind_eval (fun _ s s' hs hs' _ => ?_) (fun _ _ h => h)
  obtain rfl : r.headed S = s := (Prod.mk.inj hs).2
  obtain rfl : t.headed S = s' := (Prod.mk.inj hs').2
  exact (h _).bind (fun _ s s' h => hclose s s' h) (fun _ _ h => h)

/-- Runs that start and are finished alike end with the same solution, in the same world. -/
theorem Algorithm.outcome_abreast {world : σ}
    (hstart : Run.start S (c.withJacobian g) world = Run.start S c world)
    (h : ∀ r, Run.start S c world = .ok r → Alike (Run.Abreast (Workspace.Mirrors 𝕜 B choice))
      (Solution.outline <$> Run.finish S c)
      (Solution.outline <$> Run.finish S (c.withJacobian g)) r r) :
    (outcome S (c.withJacobian g) world).map (fun o => (o.solution.outline, o.world)) =
      (outcome S c world).map (fun o => (o.solution.outline, o.world)) := by
  unfold outcome Strategy.solve
  rw [hstart]
  rcases hr : Run.start S c world with e | r
  · rfl
  have hfinish := h r hr
  simp only [Alike, map_eq_pure_bind, eval_bind] at hfinish
  rcases hleft : (Run.finish S c).eval r with ⟨x, t⟩
  rcases hright : (Run.finish S (c.withJacobian g)).eval r with ⟨y, t'⟩
  rw [hleft, hright] at hfinish
  simp only [bind, Except.bind, hleft, hright]
  rcases x with e | x <;> rcases y with e' | y
  case error.error =>
    obtain rfl : e = e' := Except.error.inj hfinish.1
    rfl
  case ok.ok =>
    have hsolution : x.outline = y.outline := Except.ok.inj hfinish.1
    have hworld : t'.work.world = t.work.world := by
      obtain ⟨jacobian, system, -, -, hwork⟩ := hfinish.2.work
      exact congrArg (·.world) hwork
    exact congrArg Except.ok (Prod.ext hsolution.symm hworld)
  case error.ok => cases hfinish.1
  case ok.error => cases hfinish.1

end Finish

/-- **Dense and sparse factors.**  Let a backend eliminate exactly, with a sparse method that fails
on a zero pivot only. Of a nonempty square matrix, in whatever forms they are given it, the sparse
method refuses the singular ones, and the dense method those with a pivot that is negligible beside
another one, which all singular ones have; where the dense method takes it, both answer the same for
every right-hand side.

So two Newton runs with the same Jacobian in two forms start in the same state and go on abreast of
each other: they have the same iterates, codes, counters and kinds of errors. That holds for any
method that factorises, and if the method is left to the matrix for Jacobians on which the two
direct methods agree. -/
theorem Newton.dense_sparse_agree {𝕜 K : Type} [RCLike 𝕜] [Entry Exact K] [ExactEntry 𝕜 K]
    {B : Backend σ Exact K} (hB : B.Pivots 𝕜) :
    (∀ (n : Nat) (N : FieldMatrix 𝕜 n n) (D : Dense K) (A A' : Matrix Exact K)
      (w w' : Workspace σ Exact K), 0 < n → D.Reads N → A.Spells D → A'.Spells D →
        w.system.method = some .lu → w'.system.method = some .splu →
          LinearSystem.Compared B D N ((LinearSystem.factorize B A).eval w)
            ((LinearSystem.factorize B A').eval w')) ∧
    ∀ (a : Newton σ Exact K) (c : Setup σ Exact K)
      (f g : Callable σ Exact K (Tensor K) (JacobianValue K)) (world : σ),
      c.backend = B → a.form = .direct → c.problem.jacobian = some f → SameJacobian f g →
        a.choice.asked ≠ some .gmres →
        (a.choice.asked = none → ∀ r, Run.Reaches a.strategy c world r → r.isActive →
          Comparable 𝕜 c r) →
        Run.start a.strategy (c.withJacobian g) world = Run.start a.strategy c world ∧
          (∀ r, Run.start a.strategy c world = .ok r → ∀ fuel,
            Alike (Run.Abreast (Workspace.Mirrors 𝕜 B a.choice.asked))
              (Run.loop a.strategy c fuel) (Run.loop a.strategy (c.withJacobian g) fuel) r r) ∧
          ((Algorithm.newton a).solve (c.withJacobian g) world).map
              (fun o => (o.solution.outline, o.world)) =
            ((Algorithm.newton a).solve c world).map
              (fun o => (o.solution.outline, o.world)) := by
  refine ⟨fun n N D A A' w w' hn hD hA hA' hw hw' =>
    LinearSystem.compared hB hn hD hA hA' hw hw', fun a c f g world hbackend ha hc hsame hasked
      hcomparable => ?_⟩
  subst hbackend
  have hstart : Run.start a.strategy (c.withJacobian g) world = Run.start a.strategy c world :=
    start_withJacobian hc
  have hloop := fun {r t : Run σ Exact K (State σ Exact K)} (fuel : Nat) =>
    loop_abreast (r := r) (t := t) ha hB hc hsame hasked hcomparable fuel
  refine ⟨hstart, fun r hr fuel => ?_, ?_⟩
  · exact hloop fuel ⟨r, hr, .refl⟩ (abreast_of_start hr)
  · refine Algorithm.outcome_abreast (B := c.backend) hstart fun r hr =>
      Run.finish_abreast (abreast_of_start hr) fun fuel => ?_
    have hheaded : (r.headed a.strategy).Abreast
        (Workspace.Mirrors 𝕜 c.backend a.choice.asked) (r.headed a.strategy) :=
      (Run.abreast_print (abreast_of_start hr) _ _ _).2
    exact hloop fuel ⟨r, hr, .headline .refl⟩ hheaded

/-! ## One unknown -/

/-- A fresh handle for the method. -/
def LinearSystem.handle [Scalar R] (M : SolveMethod) : Workspace Unit R K :=
  { world := (), system := .fresh (some M) .standard }

namespace Newton

/-- The Jacobian of the residual of the identity that is too steep, in a sparse form. -/
noncomputable def sparseSlope : Callable Unit Exact Exact (Tensor Exact) (JacobianValue Exact) :=
  fun _ w => (.ok (.sparse (.ofDense (.ofRow [real (2 : ℕ)]))), w)

theorem steep_sameJacobian :
    SameJacobian (fun _ w => (.ok (.number (real (2 : ℕ))), w)) sparseSlope :=
  fun _ _ => ⟨rfl, .inr ⟨_, _, .ofRow [real (2 : ℕ)], rfl, rfl, ⟨rfl, rfl⟩,
    Matrix.spells_ofDense ℝ _⟩⟩

theorem halving_jacobian (s : JacobianSettings Exact) (u : Vec Exact) (fu : Option (Vec Exact))
    (w : Workspace Unit Exact Exact) :
    (halvingProblem.jacobianAt s u fu).Ends w (fun J _ => J = steep) (fun _ _ => True) := by
  have hgiven : halvingProblem.jacobian =
      some fun _ w => (.ok (.number (real (2 : ℕ))), w) := rfl
  simp only [Problem.jacobianAt, Problem.rawJacobian, hgiven, Problem.analyticJacobian, ends_bind,
    ends_mapError, ends_ofFault, Workspace.call, ends_ofFun, ends_pure]
  refine ⟨fun x _ => ⟨fun J w' h => ?_, fun _ _ _ => trivial⟩, fun _ _ => trivial⟩
  obtain ⟨hJ, rfl⟩ := Prod.mk.inj h
  obtain rfl := Except.ok.inj hJ
  split
  · trivial
  · exact rfl

/-- The step makes the matrix of one entry, on which the direct methods agree. -/
theorem halving_comparable (r : Run Unit Exact Exact (State Unit Exact Exact)) :
    Comparable ℝ halvingSetup r := by
  intro J w D _ hmade hD
  obtain rfl : J = steep := (halving_jacobian _ _ _ _).ok hmade
  obtain rfl : Grid.ofRow [real (2 : ℕ)] = D := Option.some.inj hD
  have hreads : Dense.Reads (.ofRow [real (2 : ℕ)]) (!![2] : FieldMatrix ℝ 1 1) := ⟨rfl, rfl⟩
  have haccepted : singularDetails?
      ((Backend.standard : Backend Unit Exact Exact).pivots (.ofRow [real (2 : ℕ)])) 1 = none :=
    LinearSystem.equal_accepted (d := 2) two_ne_zero (List.cons_ne_nil _ _)
      (fun p hp => List.mem_singleton.1 hp) (by norm_num)
  exact ⟨1, !![2], one_pos, hreads, fun huneven =>
    ((Backend.standard_pivots.dense_iff one_pos hreads).1 haccepted huneven).elim⟩

/-- The identity in one unknown, and a run with the slope of `halvingSetup` in a sparse form. -/
theorem halving_dense_sparse :
    LinearSystem.Compared (Backend.standard : Backend Unit Exact Exact) (.ofRow [real 1])
        (!![1] : FieldMatrix ℝ 1 1)
        ((LinearSystem.factorize .standard (.dense (.ofRow [real 1]))).eval (LinearSystem.handle .lu))
        ((LinearSystem.factorize .standard (.sparse (.ofDense (.ofRow [real 1])))).eval
          (LinearSystem.handle .splu)) ∧
      ∃ r, Run.start frugal.strategy (halvingSetup.withJacobian sparseSlope) () = .ok r ∧
        Run.start frugal.strategy halvingSetup () = .ok r ∧
        (∀ fuel, Alike (Run.Abreast (Workspace.Mirrors ℝ .standard frugal.choice.asked))
          (Run.loop frugal.strategy halvingSetup fuel)
          (Run.loop frugal.strategy (halvingSetup.withJacobian sparseSlope) fuel) r r) ∧
        ((Algorithm.newton frugal).solve (halvingSetup.withJacobian sparseSlope) ()).map
            (fun o => (o.solution.outline, o.world)) =
          ((Algorithm.newton frugal).solve halvingSetup ()).map
            (fun o => (o.solution.outline, o.world)) := by
  obtain ⟨hmatrices, hruns⟩ := dense_sparse_agree (σ := Unit) Backend.standard_pivots
  obtain ⟨r, hr⟩ := halving_starts
  obtain ⟨hstart, hloop, hsolve⟩ := hruns frugal halvingSetup _ sparseSlope () rfl rfl rfl
    steep_sameJacobian (by simp [frugal, standard, SystemChoice.asked])
    fun _ r _ _ => halving_comparable r
  refine ⟨?_, r, hstart.trans hr, hr, hloop r hr, hsolve⟩
  exact hmatrices 1 _ _ _ _ _ _ one_pos identity_reads ⟨rfl, rfl⟩
    (Matrix.spells_ofDense ℝ _) rfl rfl

end Newton

/-! ## Two unknowns of different scales -/

/-- Two handles that are given the two matrices and the right-hand side both find that their matrix
is singular, or both answer the same. -/
def LinearSystem.Agree {R : Type} [Scalar R] [Entry R K] (B : Backend σ R K) (A A' : Matrix R K)
    (b : Vec K) (w w' : Workspace σ R K) : Prop :=
  FailsSingular ((factorize B A).eval w).1 ∧ FailsSingular ((factorize B A').eval w').1 ∨
    ∃ x, ((factorize B A >>= fun _ => solve B (fun v => pure v) b).eval w).1 = .ok x ∧
      ((factorize B A' >>= fun _ => solve B (fun v => pure v) b).eval w').1 = .ok x

theorem Action.eval_bind_fst {ε S α β : Type} {a : Action ε S α} {f : α → Action ε S β} {s : S}
    {e : ε} (h : (a.eval s).1 = .error e) : ((a >>= f).eval s).1 = .error e := by
  rcases ha : a.eval s with ⟨x, t⟩
  rw [ha] at h
  cases h
  rw [eval_bind, ha]

/-- A diagonal matrix with a small entry. -/
noncomputable def skewed : Dense Exact :=
  ⟨2, [[real 1, real 0], [real 0, real (1 / (10 ^ 20 : ℕ))]], by simp⟩

theorem skewed_reads :
    skewed.Reads (!![1, 0; 0, 1 / (10 ^ 20 : ℕ)] : FieldMatrix ℝ 2 2) :=
  ⟨rfl, rfl⟩

theorem skewed_uneven : skewed.Uneven (Backend.standard : Backend Unit Exact Exact) := by
  have hpivots : (Backend.standard : Backend Unit Exact Exact).pivots skewed =
      [real |1|, real |1 / (10 ^ 20 : ℕ)|] := by
    have hdiagonal := TriangularFactors.pivots_diagonal one_ne_zero (1 / (10 ^ 20 : ℕ))
      skewed.rect
    exact congrArg (List.map Entry.abs) hdiagonal
  refine ⟨|1 / (10 ^ 20 : ℕ)|, |1|, ?_, ?_, ?_⟩
  · simp [hpivots]
  · simp [hpivots]
  · change _ ≤ ((2 : ℕ) : ℝ) * _ * _
    norm_num

/-- The same entries as decimals. -/
def skewedNumbers : Dense Number :=
  ⟨2, [[.real 1.0, .real 0.0], [.real 0.0, .real 1e-20]], by decide⟩

/-- The entries that are not zero. -/
def skewedPlaces : Sparse Number :=
  ⟨⟨2, [[some (.real 1.0), none], [none, some (.real 1e-20)]], by decide⟩, .real 0.0⟩

/-- The identity in one unknown. -/
def oneNumber : Dense Number := .ofRow [.real 1.0]

def onePlace : Sparse Number := ⟨.ofRow [some (.real 1.0)], .real 0.0⟩

/-- A linear problem with that matrix, which is given in a dense form. -/
def skewedProblem : Problem Unit Numeral Number where
  residual := .returning fun t w =>
    (.ok ⟨t.shape, Dense.apply skewedNumbers t.entries - .ofList [.real 1.0, .real 1e-20]⟩, w)
  guess := ⟨[2], .ofList [.real 0.0, .real 0.0]⟩
  jacobian := some fun _ w => (.ok (.dense skewedNumbers), w)

/-- The matrix of that problem in a sparse form. -/
def skewedSlope : Callable Unit Numeral Number (Tensor Number) (JacobianValue Number) :=
  fun _ w => (.ok (.sparse skewedPlaces), w)

theorem skewed_sameJacobian :
    SameJacobian (fun _ w => (.ok (.dense skewedNumbers), w)) skewedSlope :=
  fun _ _ => ⟨rfl, .inr ⟨_, _, skewedNumbers, rfl, rfl, ⟨rfl, rfl⟩, rfl, by decide +kernel⟩⟩

/-- How a Newton solve of the problem ends. -/
def newtonCode (p : Problem Unit Numeral Number) : Option ReturnCode :=
  ((Algorithm.newton (.standard .direct)).solve (plainSetup p) ()).toOption.map (·.solution.code)

/-- The direct methods do not agree on a matrix with a small entry, nor do the Newton solves with
that matrix; and the sparse method does not take a right-hand side with imaginary parts for a matrix
without any. -/
theorem LinearSystem.skewed_disagrees :
    (¬∀ (n : Nat) (N : FieldMatrix ℝ n n) (D : Dense Exact) (A A' : Matrix Exact Exact)
      (w w' : Workspace Unit Exact Exact) (b : Vec Exact), D.Reads N → A.Spells D → A'.Spells D →
        w.system.method = some .lu → w'.system.method = some .splu → Agree .standard A A' b w w') ∧
    (¬∀ (p : Problem Unit Numeral Number) f g, p.jacobian = some f → SameJacobian f g →
      newtonCode p = newtonCode (p.withJacobian g)) ∧
    ¬∀ (D : Dense Number) (A A' : Matrix Numeral Number) (w w' : Workspace Unit Numeral Number)
      (b : Vec Number), A.Spells D → A'.Spells D → w.system.method = some .lu →
        w'.system.method = some .splu → Agree .standard A A' b w w' := by
  refine ⟨fun hclaim => ?_, fun hclaim => ?_, fun hclaim => ?_⟩
  · have hdense : (.dense skewed : Matrix Exact Exact).Spells skewed := ⟨rfl, rfl⟩
    have hsparse := Matrix.spells_ofDense ℝ skewed
    have hcompared : Compared Backend.standard skewed _
        ((factorize .standard (.dense skewed)).eval (handle .lu))
        ((factorize .standard (.sparse (.ofDense skewed))).eval (handle .splu)) :=
      compared Backend.standard_pivots two_pos skewed_reads hdense hsparse rfl rfl
    have hdet : (!![1, 0; 0, 1 / (10 ^ 20 : ℕ)] : FieldMatrix ℝ 2 2).det ≠ 0 := by
      rw [Matrix.det_fin_two_of]
      norm_num
    obtain ⟨f, hf, -⟩ := hcompared.dense_refused skewed_uneven
    rcases hclaim 2 _ skewed _ _ (handle .lu) (handle .splu) (.ofList []) skewed_reads hdense hsparse
      rfl rfl with ⟨-, f', hf', -⟩ | ⟨x, hx, -⟩
    · cases (hcompared.sparse_taken hdet).symm.trans hf'
    · cases (eval_bind_fst hf).symm.trans hx
  · have hcodes : newtonCode skewedProblem ≠ newtonCode (skewedProblem.withJacobian skewedSlope) := by
      decide +kernel
    exact hcodes (hclaim _ _ _ rfl skewed_sameJacobian)
  · have htaken : ((factorize .standard (.dense oneNumber)).eval (handle .lu)).1.isOk = true := by
      decide +kernel
    have hrefused : ((factorize .standard (.sparse onePlace) >>= fun _ =>
        solve .standard (fun v => pure v) (.ofList [.complex 1.0 1.0])).eval
          (handle .splu)).1.isOk = false := by
      decide +kernel
    rcases hclaim oneNumber (.dense oneNumber) (.sparse onePlace) (handle .lu) (handle .splu)
      (.ofList [.complex 1.0 1.0]) ⟨rfl, rfl⟩ ⟨rfl, by decide +kernel⟩ rfl rfl with
      ⟨⟨f, hf, -⟩, -⟩ | ⟨x, -, hx⟩
    · rw [hf] at htaken
      cases htaken
    · rw [hx] at hrefused
      cases hrefused

end RootFinding
