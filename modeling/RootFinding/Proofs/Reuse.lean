import RootFinding.Proofs.Consistency
import RootFinding.Proofs.ExactEntry
import RootFinding.Proofs.Newton

/-!
# The reuse of Jacobians

The policy by which a Newton run uses an old Jacobian again, over whole runs. The way that the
policy looks at is added up step by step; in exact arithmetic it is the difference between the
iterate and the one at which the stored Jacobian was made.

* `Newton.Since a c r₀ s p t`: between the steps in `t`, the stored Jacobian is the one that was
  made in the step from `s`, and the last step is the one from `p`.
* `Newton.Boundary a c s p t`: what the policy finds there. `Since.boundary` is the induction.
* `Newton.Policy a c r₀ r t`: the Jacobian with which the step from `r` to `t` has solved.
* `Newton.run_reuses`: every step of a run that has not failed keeps to the policy.
-/

namespace RootFinding

open Action Exact

/-! ## The way of an iterate -/

theorem Vec.increase_ok {R K : Type} [Scalar R] [Entry R K] {u v w : Vec K}
    (h : u.increase v = .ok w) : w = u + v := by
  unfold Vec.increase at h
  split at h
  · cases h
  · cases h
    rfl

section Way

variable (𝕜 : Type) {K : Type} [RCLike 𝕜] [Entry Exact K] [ExactEntry 𝕜 K]

include 𝕜

open ExactEntry

/-- Two ways that follow each other add up to the way between their ends. -/
theorem Entry.add_way {x v d : K} (hv : Entry.isFinite (x - v) = true)
    (hd : Entry.isFinite (x - d) = true) :
    x - v + (x - d - x) = x - d - v ∧ Entry.isFinite (x - d - v) = true := by
  obtain ⟨a, rfl⟩ := exists_number 𝕜 (isFinite_sub hv).1
  obtain ⟨b, rfl⟩ := exists_number 𝕜 (isFinite_sub hv).2
  obtain ⟨z, rfl⟩ := exists_number 𝕜 (isFinite_sub hd).2
  simp only [ExactEntry.sub, ExactEntry.add, isFinite_number, and_true]
  congr 1
  ring

/-- The first way is added to zero. -/
theorem Entry.zero_add_way {x d : K} (hd : Entry.isFinite (x - d) = true) :
    Entry.zeroAs (Entry.isReal x) + (x - d - x) = x - d - x ∧
      Entry.isFinite (x - d - x) = true := by
  have hzero : Entry.zeroAs (Entry.isReal x) = number (0 : 𝕜) := ExactEntry.zeroAs x
  obtain ⟨a, rfl⟩ := exists_number 𝕜 (isFinite_sub hd).1
  obtain ⟨z, rfl⟩ := exists_number 𝕜 (isFinite_sub hd).2
  simp only [hzero, ExactEntry.sub, ExactEntry.add, zero_add, isFinite_number, and_self]

theorem Vec.add_way {x v d : Vec K} (hv : (x - v).isFinite = true)
    (hd : (x - d).isFinite = true) :
    x - v + (x - d - x) = x - d - v ∧ (x - d - v).isFinite = true := by
  induction x generalizing v d with
  | nil => exact ⟨rfl, rfl⟩
  | cons a x ih =>
    cases v with
    | nil => cases d <;> exact ⟨rfl, rfl⟩
    | cons b v =>
      cases d with
      | nil => exact ⟨rfl, rfl⟩
      | cons z d =>
        obtain ⟨hb, hv⟩ := Bool.and_eq_true_iff.1 hv
        obtain ⟨hz, hd⟩ := Bool.and_eq_true_iff.1 hd
        obtain ⟨hhead, hfinite⟩ := Entry.add_way 𝕜 hb hz
        obtain ⟨htail, hfinites⟩ := ih hv hd
        exact ⟨congrArg₂ List.cons hhead htail, Bool.and_eq_true_iff.2 ⟨hfinite, hfinites⟩⟩

theorem Vec.zero_add_way {x d : Vec K} (hd : (x - d).isFinite = true) :
    x.zerosLike + (x - d - x) = x - d - x ∧ (x - d - x).isFinite = true := by
  induction x generalizing d with
  | nil => exact ⟨rfl, rfl⟩
  | cons a x ih =>
    cases d with
    | nil => exact ⟨rfl, rfl⟩
    | cons z d =>
      obtain ⟨hz, hd⟩ := Bool.and_eq_true_iff.1 hd
      obtain ⟨hhead, hfinite⟩ := Entry.zero_add_way 𝕜 hz
      obtain ⟨htail, hfinites⟩ := ih hd
      exact ⟨congrArg₂ List.cons hhead htail, Bool.and_eq_true_iff.2 ⟨hfinite, hfinites⟩⟩

end Way

namespace Newton

/-! ## Runs -/

section Runs

variable {σ R K : Type} [Scalar R] [Entry R K] {a : Newton σ R K} {c : Setup σ R K}
  {r₀ p r s t : Run σ R K (State σ R K)}

/-- Between the steps of a run that has begun in `r₀` and is now in `t`, the Jacobian was made in
the step from `s`, and the last step is the one from `p`. No step on the way has failed. -/
inductive Since (a : Newton σ R K) (c : Setup σ R K) (r₀ : Run σ R K (State σ R K)) :
    Run σ R K (State σ R K) → Run σ R K (State σ R K) → Run σ R K (State σ R K) → Prop
  | built {r t : Run σ R K (State σ R K)} (before : Run.Leads a.strategy c r₀ r)
    (active : r.isActive) (stepped : (Run.step a.strategy c).eval r = (.ok (), t))
    (going : t.error = none) (counted : t.work.jacobians = r.work.jacobians + 1) :
    Since a c r₀ r r t
  | kept {s p r t : Run σ R K (State σ R K)} (before : Since a c r₀ s p r) (active : r.isActive)
    (stepped : (Run.step a.strategy c).eval r = (.ok (), t)) (going : t.error = none)
    (counted : t.work.jacobians = r.work.jacobians) : Since a c r₀ s r t
  | headline {s p t : Run σ R K (State σ R K)} (before : Since a c r₀ s p t) :
    Since a c r₀ s p (t.headed a.strategy)

/-- No Jacobian was made yet. -/
structure Unbuilt (c : Setup σ R K) (t : Run σ R K (State σ R K)) : Prop where
  steps : t.steps = 0
  jacobian : t.work.jacobian = none
  way : t.ext.way = t.u.zerosLike
  previous : t.ext.previousNorm = c.options.norm t.fu

/-- What the policy finds between the steps: the stored Jacobian is the one at the iterate of `s`,
and the linear system has its matrix with the factors; the way is the one from that iterate; and the
previous norm is the one at the start of the last step. -/
structure Boundary (a : Newton σ R K) (c : Setup σ R K) (s p t : Run σ R K (State σ R K)) :
    Prop where
  made : ∃ J w, (c.problem.jacobianAt s.ext.jacobians s.u (some s.fu)).eval s.work = (.ok J, w) ∧
    t.work.jacobian = some J ∧ ∃ M, t.work.system.Ready (a.systemMatrix J) M
  way : t.ext.way = t.u - s.u
  finite : (t.u - s.u).isFinite = true
  previous : t.ext.previousNorm = c.options.norm p.fu

/-- The step from `r` to `t` has solved with the Jacobian that is stored then, by the factors of its
matrix and for the right-hand side that belongs to it. -/
structure Solved (a : Newton σ R K) (c : Setup σ R K) (r t : Run σ R K (State σ R K))
    (J : Matrix R K) : Prop where
  stored : t.work.jacobian = some J
  solve : ∃ s b w, (a.renew c).eval r = (.ok (), s) ∧ s.work.jacobian = some J ∧
    (∃ M, s.work.system.Ready (a.systemMatrix J) M) ∧ a.rightSide (some J) r.fu = .ok b ∧
    (LinearSystem.solve c.backend c.problem.evaluate b).eval s.work = (.ok t.du, w)

/-! ## Steps that have not failed -/

/-- A step that has not failed, and the finite iterate that it leaves. -/
theorem exists_stepped (h : (Run.step a.strategy c).eval r = (.ok (), t)) (ht : t.error = none) :
    ∃ s, Stepped a c r s t ∧ t.u.isFinite = true := by
  obtain ⟨t', ht', rfl⟩ := Run.step_going h ht
  obtain ⟨s, hs⟩ := (step_stepped r).ok ht'
  obtain ⟨b, htested⟩ := (a.proceeds c r).ok ht'
  obtain ⟨trace, printed, heq⟩ := Run.recorded_eq c r.u t'
  rw [heq]
  exact ⟨s, ⟨hs.renew, hs.solved, hs.u, hs.answered, hs.model, hs.ext⟩, htested.isFinite.1⟩

/-- The policy asks for no new Jacobian, and the step leaves everything as it is; or the step makes
one. -/
theorem Stepped.cases (hB : c.backend.Frames) (h : Stepped a c r s t) :
    (NeedsJacobian c r = false ∧ t.work.model = r.work.model ∧
        t.ext.way = r.ext.way + (t.u - r.u)) ∨
      (NeedsJacobian c r = true ∧ t.work.jacobians = r.work.jacobians + 1 ∧
        t.ext.way = r.u.zerosLike + (t.u - r.u) ∧ ∃ J w,
          (c.problem.jacobianAt r.ext.jacobians r.u (some r.fu)).eval r.work = (.ok J, w) ∧
          s.work.jacobian = some J ∧ ∃ M, s.work.system.Ready (a.systemMatrix J) M) := by
  obtain ⟨way, hway, hext⟩ := h.ext
  have hmodel := h.model hB
  cases h.renewed with
  | kept needed => exact .inl ⟨needed, hmodel, by rw [hext]; exact Vec.increase_ok hway⟩
  | built J w w' needed made factorized =>
    obtain ⟨hstored, hcounted, hready⟩ := Renewed.built_model made factorized
    refine .inr ⟨needed, ?_, by rw [hext]; exact Vec.increase_ok hway, J, w, made, hstored, hready⟩
    exact (congrArg (·.2.1) hmodel).trans hcounted

theorem Stepped.previous (h : Stepped a c r s t) :
    t.ext.previousNorm = c.options.norm r.fu ∧ t.ext.jacobians = r.ext.jacobians := by
  obtain ⟨way, -, hext⟩ := h.ext
  rw [hext]
  cases h.renewed <;> exact ⟨rfl, rfl⟩

/-! ## Starts -/

theorem Unbuilt.of_start {world : σ} (h : Run.start a.strategy c world = .ok r₀) :
    Unbuilt c r₀ := by
  obtain ⟨fu, work, system, ext, started⟩ := Run.start_ok h
  have hwork : work.model = (Run.emptyWorkspace world).model :=
    ((c.problem.evaluate_model _).ends _).ok started.residual
  have hprepared := start_ok started.prepared
  rw [started.eq]
  exact ⟨rfl, congrArg (·.1) hwork, hprepared.way, hprepared.previousNorm⟩

/-- The settings of the policy are those that the run was started with. -/
theorem settings_of_leads {world : σ} (hstart : Run.start a.strategy c world = .ok r₀)
    (h : Run.Leads a.strategy c r₀ t) (ht : t.error = none) :
    t.ext.jacobians.reuse = a.reuse ∧ t.ext.jacobians.reuseTolerance = a.reuseTolerance := by
  induction h with
  | refl =>
    have hprepared := start_ok (Run.start_prepared hstart)
    exact ⟨hprepared.reuse, hprepared.reuseTolerance⟩
  | headline _ ih => exact ih ht
  | step before active hstep ih =>
    obtain ⟨s, hs, -⟩ := exists_stepped hstep ht
    rw [hs.previous.2]
    exact ih (before.error_eq_none (a.proceeds c) (Run.start_error hstart)
      (Run.stopped_of_isActive active))

/-- Whatever a run reaches without a failure, it has reached without a step, or with a Jacobian that
was made in one of its steps. -/
theorem since_of_leads {world : σ} (hB : c.backend.Frames)
    (hstart : Run.start a.strategy c world = .ok r₀) (h : Run.Leads a.strategy c r₀ t)
    (ht : t.error = none) : Unbuilt c t ∨ ∃ s p, Since a c r₀ s p t := by
  induction h with
  | refl => exact .inl (.of_start hstart)
  | headline _ ih =>
    rcases ih ht with h | ⟨s, p, h⟩
    · exact .inl ⟨h.steps, h.jacobian, h.way, h.previous⟩
    · exact .inr ⟨s, p, h.headline⟩
  | @step r t before active hstep ih =>
    have hr : r.error = none := before.error_eq_none (a.proceeds c) (Run.start_error hstart)
      (Run.stopped_of_isActive active)
    obtain ⟨s', hs', -⟩ := exists_stepped hstep ht
    rcases hs'.cases hB with ⟨hneeded, hmodel, -⟩ | ⟨-, hcounted, -⟩
    · rcases ih hr with h | ⟨s, p, h⟩
      · -- without a Jacobian the policy asks for one
        simp [NeedsJacobian, JacobianSettings.needsRebuild, h.jacobian] at hneeded
      · exact .inr ⟨s, r, h.kept active hstep ht (congrArg (·.2.1) hmodel)⟩
    · exact .inr ⟨r, r, .built before active hstep ht hcounted⟩

end Runs

/-! ## Exact arithmetic -/

section Exact

variable {σ : Type} (𝕜 : Type) {K : Type} [RCLike 𝕜] [Entry Exact K] [ExactEntry 𝕜 K]
  {a : Newton σ Exact K} {c : Setup σ Exact K} {r₀ p r s s' t : Run σ Exact K (State σ Exact K)}

/-- How the step from `r` to `t` has got its Jacobian: it has made a new one, or the policy has let
it use the one from the step from `s` again, since the iterate is near and the norm of the residual
has not grown over the last step, the one from `p`. -/
inductive Policy (a : Newton σ Exact K) (c : Setup σ Exact K)
    (r₀ r t : Run σ Exact K (State σ Exact K)) : Prop
  | built (counted : t.work.jacobians = r.work.jacobians + 1) (since : Since a c r₀ r r t)
  | kept (s p : Run σ Exact K (State σ Exact K)) (reuse : a.reuse = true)
    (counted : t.work.jacobians = r.work.jacobians) (before : Since a c r₀ s p r)
    (since : Since a c r₀ s r t)
    (near : ∀ x, c.options.norm (r.u - s.u) = real x → real x ≤ a.reuseTolerance)
    (falls : ∀ x y, c.options.norm r.fu = real x → c.options.norm p.fu = real y → x ≤ y)

include 𝕜

theorem Boundary.of_built (hs : Stepped a c r s' t) (hu : t.u.isFinite = true)
    (hway : t.ext.way = r.u.zerosLike + (t.u - r.u)) (hB : c.backend.Frames) {J : Matrix Exact K}
    {w : Workspace σ Exact K} {M : SolveMethod}
    (hmade : (c.problem.jacobianAt r.ext.jacobians r.u (some r.fu)).eval r.work = (.ok J, w))
    (hstored : s'.work.jacobian = some J) (hready : s'.work.system.Ready (a.systemMatrix J) M) :
    Boundary a c r r t := by
  have hmodel := hs.model hB
  rw [hs.u] at hu hway
  obtain ⟨hsum, hfinite⟩ := Vec.zero_add_way 𝕜 hu
  rw [← hs.u] at hfinite hway hsum
  exact ⟨⟨J, w, hmade, (congrArg (·.1) hmodel).trans hstored, M, hready.of_model hmodel⟩,
    hway.trans hsum, hfinite, hs.previous.1⟩

theorem Boundary.kept (h : Boundary a c s p r) (hs : Stepped a c r s' t)
    (hu : t.u.isFinite = true) (hway : t.ext.way = r.ext.way + (t.u - r.u))
    (hmodel : t.work.model = r.work.model) : Boundary a c s r t := by
  obtain ⟨J, w, hmade, hstored, M, hready⟩ := h.made
  rw [hs.u] at hu hway
  obtain ⟨hsum, hfinite⟩ := Vec.add_way 𝕜 h.finite hu
  rw [h.way] at hway
  rw [← hs.u] at hfinite hway hsum
  exact ⟨⟨J, w, hmade, (congrArg (·.1) hmodel).trans hstored, M, hready.of_model hmodel⟩,
    hway.trans hsum, hfinite, hs.previous.1⟩

/-- What the policy finds after every step that has not failed. -/
theorem Since.boundary (hB : c.backend.Frames) (h : Since a c r₀ s p t) :
    Boundary a c s p t := by
  induction h with
  | built before active stepped going counted =>
    obtain ⟨s', hs', hu⟩ := exists_stepped stepped going
    rcases hs'.cases hB with ⟨-, hmodel, -⟩ | ⟨-, -, hway, J, w, hmade, hstored, M, hready⟩
    · have hsame := congrArg (·.2.1) hmodel
      exact absurd (counted.symm.trans hsame) (Nat.succ_ne_self _)
    · exact .of_built 𝕜 hs' hu hway hB hmade hstored hready
  | kept before active stepped going counted ih =>
    obtain ⟨s', hs', hu⟩ := exists_stepped stepped going
    rcases hs'.cases hB with ⟨-, hmodel, hway⟩ | ⟨-, hcounted, -⟩
    · exact ih.kept 𝕜 hs' hu hway hmodel
    · exact absurd (hcounted.symm.trans counted) (Nat.succ_ne_self _)
  | headline _ ih => exact ⟨ih.made, ih.way, ih.finite, ih.previous⟩

/-- A run that goes on finds its last Jacobian where the policy asks for no new one. -/
theorem since_of_kept {world : σ} (hB : c.backend.Frames)
    (hstart : Run.start a.strategy c world = .ok r₀) (before : Run.Leads a.strategy c r₀ r)
    (active : r.isActive) (hneeded : NeedsJacobian c r = false) :
    ∃ s p, Since a c r₀ s p r ∧ Boundary a c s p r := by
  have hr : r.error = none := before.error_eq_none (a.proceeds c) (Run.start_error hstart)
    (Run.stopped_of_isActive active)
  rcases since_of_leads hB hstart before hr with hunbuilt | ⟨s, p, hsince⟩
  · simp [NeedsJacobian, JacobianSettings.needsRebuild, hunbuilt.jacobian] at hneeded
  · exact ⟨s, p, hsince, hsince.boundary 𝕜 hB⟩

/-- The Jacobian with which a step solves is stored, and the linear system has its matrix. -/
theorem ready_of_renew {world : σ} (hB : c.backend.Frames)
    (hstart : Run.start a.strategy c world = .ok r₀) (before : Run.Leads a.strategy c r₀ r)
    (active : r.isActive) (h : (a.renew c).eval r = (.ok (), s)) :
    ∃ J, s.work.jacobian = some J ∧ ∃ M, s.work.system.Ready (a.systemMatrix J) M := by
  cases (renew_renewed r).ok h with
  | kept needed =>
    obtain ⟨_, _, -, hboundary⟩ := since_of_kept 𝕜 hB hstart before active needed
    obtain ⟨J, w, -, hstored, hready⟩ := hboundary.made
    exact ⟨J, hstored, hready⟩
  | built J w w' _ made factorized =>
    obtain ⟨hstored, -, hready⟩ := Renewed.built_model made factorized
    exact ⟨J, hstored, hready⟩

/-- A step that has not failed has solved with the Jacobian that it leaves stored, and has got it by
the policy. -/
theorem policy_of_step {world : σ} (htolerance : real 0 ≤ a.reuseTolerance)
    (hB : c.backend.Frames) (hstart : Run.start a.strategy c world = .ok r₀)
    (before : Run.Leads a.strategy c r₀ r) (active : r.isActive)
    (hstep : (Run.step a.strategy c).eval r = (.ok (), t)) (ht : t.error = none) :
    (∃ J, Solved a c r t J) ∧ Policy a c r₀ r t := by
  have hr : r.error = none := before.error_eq_none (a.proceeds c) (Run.start_error hstart)
    (Run.stopped_of_isActive active)
  obtain ⟨s', hs', -⟩ := exists_stepped hstep ht
  have hsolved : ∃ J, Solved a c r t J := by
    obtain ⟨J, hJ, hready⟩ := ready_of_renew 𝕜 hB hstart before active hs'.renew
    obtain ⟨b, w, hb, hw⟩ := hs'.solved
    rw [hJ] at hb
    exact ⟨J, (congrArg (·.1) (hs'.model hB)).trans hJ, s', b, w, hs'.renew, hJ, hready, hb, hw⟩
  refine ⟨hsolved, ?_⟩
  rcases hs'.cases hB with ⟨hneeded, hkept, -⟩ | ⟨-, hcounted, -⟩
  · obtain ⟨s, p, hsince, hboundary⟩ := since_of_kept 𝕜 hB hstart before active hneeded
    have hcounted := congrArg (·.2.1) hkept
    obtain ⟨hreuse, htol⟩ := settings_of_leads hstart before hr
    have hneeds : a.reuse = true ∧ r.work.jacobian.isSome = true ∧
        ¬c.options.norm p.fu < c.options.norm r.fu ∧
        ¬a.reuseTolerance < c.options.norm (r.u - s.u) := by
      rw [← hboundary.previous, ← hboundary.way]
      simpa [NeedsJacobian, JacobianSettings.needsRebuild, hreuse, htol, and_assoc] using hneeded
    obtain ⟨hreuse, -, hfalls, hnear⟩ := hneeds
    refine .kept s p hreuse hcounted hsince (hsince.kept active hstep ht hcounted)
      (fun x hx => ?_) fun x y hx hy => ?_
    · rw [hx] at hnear
      exact le_of_not_lt htolerance hnear
    · rw [hx, hy] at hfalls
      exact not_lt.1 hfalls
  · exact .built hcounted (.built before active hstep ht hcounted)

/-- **Reuse of Jacobians.**  In a run of the Newton strategy, direct or by the normal equations,
whatever is reached without a failure was reached without a step, or the stored Jacobian was made in
one of the steps. Then the way that is added up is the one from the iterate of that step, the
previous norm is that of the residual at the start of the last step, and the linear system has the
matrix of that Jacobian with its factors. Every further step that does not fail solves with the
Jacobian that it leaves stored, and has made it at the present iterate, or has used it again because
the iterate is near enough and the residual has not grown over the last step. Without reuse every
step makes it. -/
theorem run_reuses (a : Newton σ Exact K) (c : Setup σ Exact K) (world : σ)
    (htolerance : real 0 ≤ a.reuseTolerance) (hB : c.backend.Frames)
    {r₀ : Run σ Exact K (State σ Exact K)} (hstart : Run.start a.strategy c world = .ok r₀) :
    (∀ t, Run.Leads a.strategy c r₀ t → t.error = none →
        Unbuilt c t ∨ ∃ s p, Since a c r₀ s p t) ∧
      (∀ s p t, Since a c r₀ s p t → Boundary a c s p t) ∧
      ∀ r t, Run.Leads a.strategy c r₀ r → r.isActive →
        (Run.step a.strategy c).eval r = (.ok (), t) → t.error = none →
          (∃ J, Solved a c r t J) ∧ Policy a c r₀ r t ∧
            (a.reuse = false → Since a c r₀ r r t) := by
  refine ⟨fun t ht => since_of_leads hB hstart ht, fun s p t h => h.boundary 𝕜 hB,
    fun r t before active hstep ht => ?_⟩
  obtain ⟨hsolved, hpolicy⟩ := policy_of_step 𝕜 htolerance hB hstart before active hstep ht
  refine ⟨hsolved, hpolicy, fun hreuse => ?_⟩
  cases hpolicy with
  | built _ since => exact since
  | kept _ _ reuse =>
    rw [hreuse] at reuse
    cases reuse

end Exact

/-- The residual of the identity with a Jacobian that is too steep, so that steps halve the
iterate. -/
noncomputable def halvingProblem : Problem Unit Exact Exact where
  residual := .returning fun t w => (.ok t, w)
  guess := ⟨[1], .ofList [real 1]⟩
  jacobian := some fun _ w => (.ok (.number (real (2 : ℕ))), w)

noncomputable def halvingSetup : Setup Unit Exact Exact where
  problem := halvingProblem
  options :=
    { abstol := 1e-8, reltol := 1e-8, termination := .standard, norm := Vec.norm }
  backend := .standard

/-- The strategy with reuse. -/
noncomputable def frugal : Newton Unit Exact Exact := { standard .direct with reuse := true }

theorem frugal_tolerance : frugal.reuseTolerance = real (1 / 10) := by
  have h : frugal.reuseTolerance = 0.1 := rfl
  rw [h, ofScientific_eq]
  norm_num

theorem frugal_validate : frugal.validate = frugal.search.search := by
  unfold validate
  rw [frugal_tolerance, if_neg]
  norm_num

theorem halving_starts : ∃ r₀, Run.start frugal.strategy halvingSetup () = .ok r₀ := by
  obtain ⟨x, hx⟩ : ∃ x, frugal.start halvingSetup halvingProblem.guess.entries
      halvingProblem.guess.entries = .ok x := by
    unfold Newton.start
    rw [frugal_validate]
    exact ⟨_, rfl⟩
  exact ⟨_, Run.Started.start_eq ⟨rfl, fun _ => rfl, hx, by decide, rfl⟩⟩

theorem halving_reuses :
    real 0 ≤ frugal.reuseTolerance ∧ halvingSetup.backend.Frames ∧
      ∃ r₀, Run.start frugal.strategy halvingSetup () = .ok r₀ ∧
        (∀ s p t, Since frugal halvingSetup r₀ s p t → Boundary frugal halvingSetup s p t) ∧
        ∀ r t, Run.Leads frugal.strategy halvingSetup r₀ r → r.isActive →
          (Run.step frugal.strategy halvingSetup).eval r = (.ok (), t) → t.error = none →
            (∃ J, Solved frugal halvingSetup r t J) ∧ Policy frugal halvingSetup r₀ r t := by
  have htolerance : real 0 ≤ frugal.reuseTolerance := by
    rw [frugal_tolerance, real_le]
    norm_num
  obtain ⟨r₀, hstart⟩ := halving_starts
  obtain ⟨-, hboundary, hstep⟩ :=
    run_reuses ℝ frugal halvingSetup () htolerance Backend.standard_frames hstart
  refine ⟨htolerance, Backend.standard_frames, r₀, hstart, hboundary,
    fun r t before active hstepped ht => ?_⟩
  obtain ⟨hsolved, hpolicy, -⟩ := hstep r t before active hstepped ht
  exact ⟨hsolved, hpolicy⟩

end Newton

end RootFinding
