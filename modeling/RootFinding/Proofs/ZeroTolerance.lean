import RootFinding.Proofs.ExactParts
import RootFinding.Proofs.Steady

/-!
# Reuse of Jacobians without a tolerance

With a tolerance of zero a Newton run uses its Jacobian again only where it stands still: the way
since that Jacobian has the norm zero, so the iterate and its residual are the ones that it was made
at. A run without reuse makes it once more there, and gets the same matrix with the same factors.

* `Newton.MadeAt a c r v fv`: what the policy finds between the steps. The stored Jacobian was made
  at `v`, and the way leads from `v` to the iterate.
* `Newton.Frugal.current`: after `renew` the stored Jacobian is the one of the present iterate, made
  in this step or not.
* `Newton.renew_beside`: so both runs are left with the same Jacobian, factors and way.
* `Newton.zero_tolerance`: the runs agree after every step, up to and including one that fails.
-/

namespace RootFinding

open Action Exact Workspace

/-! ## Standing still -/

section Still

variable (𝕜 : Type) {K : Type} [RCLike 𝕜] [Entry Exact K] [ExactEntry 𝕜 K]

include 𝕜

open ExactEntry

/-- Vectors of one size with a zero difference are the same. -/
theorem Vec.eq_of_sub_isZero {u v : Vec K} (hsize : u.size = v.size)
    (hzero : (u - v).isZero = true) : u = v ∧ u - v = u.zerosLike := by
  induction u generalizing v with
  | nil =>
    cases v with
    | nil => exact ⟨rfl, rfl⟩
    | cons b v => cases hsize
  | cons a u ih =>
    cases v with
    | nil => cases hsize
    | cons b v =>
      obtain ⟨hhead, htail⟩ := Bool.and_eq_true_iff.1 hzero
      obtain ⟨rfl, hsub⟩ := ih (Nat.succ.inj hsize) htail
      have hab : a - b = number (0 : 𝕜) := (isZero_iff _).1 hhead
      have hfinite : Entry.isFinite (a - b) = true := by
        rw [hab]
        exact isFinite_number 0
      obtain ⟨x, rfl⟩ := exists_number 𝕜 (isFinite_sub hfinite).1
      obtain ⟨y, rfl⟩ := exists_number 𝕜 (isFinite_sub hfinite).2
      rw [ExactEntry.sub] at hab
      obtain rfl : x = y := sub_eq_zero.1 (number_injective hab)
      refine ⟨rfl, congrArg₂ List.cons ?_ hsub⟩
      exact (ExactEntry.sub x x).trans ((congrArg number (sub_self x)).trans (zeroAs _).symm)

theorem Vec.isZero_of_euclidean {xs : List 𝕜} (h : euclidean xs = 0) :
    (numbers xs : Vec K).isZero = true := by
  induction xs with
  | nil => rfl
  | cons x xs ih =>
    have hsum : ‖x‖ ^ 2 + euclidean xs ^ 2 = 0 := by
      rw [← euclidean_cons_sq, h]
      exact zero_pow two_ne_zero
    obtain ⟨hx, hxs⟩ := (add_eq_zero_iff_of_nonneg (sq_nonneg _) (sq_nonneg _)).1 hsum
    refine Bool.and_eq_true_iff.2 ⟨(isZero_iff _).2 ?_, ih ((sq_eq_zero_iff).1 hxs)⟩
    rw [norm_eq_zero.1 ((sq_eq_zero_iff).1 hx)]

end Still

/-- The norm of a finite vector is positive unless the vector is zero. -/
def Options.Definite {R K : Type} [Scalar R] [Entry R K] (o : Options R K) : Prop :=
  ∀ v : Vec K, v.isFinite = true → v.isZero = false → 0.0 < o.norm v

/-- So is the Euclidean norm. -/
theorem Options.definite_euclidean (𝕜 : Type) {K : Type} [RCLike 𝕜] [Entry Exact K]
    [ExactEntry 𝕜 K] [ExactParts 𝕜 K] {o : Options Exact K} (h : o.norm = Vec.norm) :
    o.Definite := by
  intro v hv hzero
  obtain ⟨xs, rfl⟩ := Vec.exists_numbers (𝕜 := 𝕜) hv
  have hpos : 0 < euclidean xs := by
    refine (euclidean_nonneg xs).lt_of_ne' fun hxs => ?_
    rw [Vec.isZero_of_euclidean 𝕜 hxs] at hzero
    cases hzero
  rw [h, Vec.norm_numbers, ofScientific_eq, real_lt]
  norm_num [hpos]

namespace Newton

variable {σ τ R K : Type}

/-- The strategy with another policy for its Jacobians. -/
def withReuse (a : Newton σ R K) (reuse : Bool) (tolerance : R) : Newton σ R K :=
  { a with reuse, reuseTolerance := tolerance }

/-- The state with another policy for its Jacobians. -/
def State.withReuse (e : State σ R K) (reuse : Bool) (tolerance : R) : State σ R K :=
  { e with jacobians := { e.jacobians with reuse, reuseTolerance := tolerance } }

/-- A state with reuse at the tolerance zero, and the same one without reuse. -/
def Policies [Scalar R] (tolerance : R) (e e' : State σ R K) : Prop :=
  e.jacobians.reuse = true ∧ e.jacobians.reuseTolerance = 0.0 ∧ e' = e.withReuse false tolerance

/-- The Jacobian that is stored in `r` was made at `v` with the residual `fv`, the linear system has
its factors, and the way leads from `v` to the iterate. -/
structure MadeAt [Scalar R] [Entry R K] (a : Newton σ R K) (c : Setup σ R K)
    (r : Run σ R K (State σ R K)) (v fv : Vec K) : Prop where
  answered : c.problem.Answered v fv
  made : ∃ J w w', (c.problem.jacobianAt r.ext.jacobians v (some fv)).eval w = (.ok J, w') ∧
    r.work.jacobian = some J ∧ r.work.system.Factorized c.backend (a.systemMatrix J)
  way : r.ext.way = r.u - v
  finite : (r.u - v).isFinite = true

/-- What holds between the steps of a run with reuse. -/
structure Frugal [Scalar R] [Entry R K] (a : Newton σ R K) (c : Setup σ R K) (part : σ → τ)
    (r : Run σ R K (State σ R K)) : Prop where
  search : r.ext.search.Sees part
  tolerance : r.ext.jacobians.reuseTolerance = 0.0
  answered : c.problem.Answered r.u r.fu
  recent : r.work.jacobian = none ∨ ∃ v fv, MadeAt a c r v fv

/-- The stored Jacobian was made at the iterate of `r`, the linear system has its factors, and the
way is still zero. -/
structure Current [Scalar R] [Entry R K] (a : Newton σ R K) (c : Setup σ R K)
    (r : Run σ R K (State σ R K)) : Prop where
  made : ∃ J w w', (c.problem.jacobianAt r.ext.jacobians r.u (some r.fu)).eval w = (.ok J, w') ∧
    r.work.jacobian = some J ∧ r.work.system.Factorized c.backend (a.systemMatrix J)
  way : r.ext.way = r.u.zerosLike

section Renewals

variable [Scalar R] [Entry R K] {a : Newton σ R K} {c : Setup σ R K} {part : σ → τ}
  {r t : Run σ R K (State σ R K)} {tolerance : R}

/-- How a step makes a new Jacobian. -/
theorem renew_built {J : Matrix R K} {w w' : Workspace σ R K} (needed : NeedsJacobian c r = true)
    (made : (c.problem.jacobianAt r.ext.jacobians r.u (some r.fu)).eval r.work = (.ok J, w))
    (factorized :
      (LinearSystem.factorize c.backend (a.systemMatrix J)).eval w = (.ok (), w')) :
    (a.renew c).eval r = (.ok (), { r with
      work := w'
      ext := { r.ext with way := r.u.zerosLike, previousNorm := c.options.norm r.fu } }) := by
  unfold NeedsJacobian at needed
  simp only [renew, eval_bind, eval_get, needed, if_true, Run.onWork, eval_within, made, factorized,
    Run.update, eval_modify]

/-- How a step uses the old Jacobian again. -/
theorem renew_kept (needed : NeedsJacobian c r = false) :
    (a.renew c).eval r =
      (.ok (), { r with ext := { r.ext with previousNorm := c.options.norm r.fu } }) := by
  unfold NeedsJacobian at needed
  simp only [renew, eval_bind, eval_get, needed, Bool.false_eq_true, if_false, Run.update,
    eval_modify]

omit [Entry R K] in
/-- A change of the state that neither looks at the policy nor touches it. -/
theorem beside_update {f : State σ R K → State σ R K}
    (hf : ∀ e reuse tolerance, f (e.withReuse reuse tolerance) = (f e).withReuse reuse tolerance)
    (hjacobians : ∀ e, (f e).jacobians = e.jacobians) :
    Respects (Run.Beside (Matches part) (Policies tolerance))
      (Run.update f : Stepping σ R K (State σ R K) Unit) := by
  intro r t h
  obtain ⟨hreuse, hzero, heq⟩ := h.ext
  refine Run.alike_update h ⟨?_, ?_, ?_⟩
  · rw [hjacobians, hreuse]
  · rw [hjacobians, hzero]
  · rw [heq, hf]

omit [Entry R K] in
/-- A run without reuse asks for a Jacobian in each step. -/
theorem Policies.needs {e e' : State σ R K} (h : Policies tolerance e e') :
    e'.jacobians.scheme = e.jacobians.scheme ∧ e'.jacobians.concrete = e.jacobians.concrete ∧
      e'.way = e.way ∧ e'.search = e.search ∧ e'.jacobians.reuse = false := by
  obtain ⟨-, -, rfl⟩ := h
  exact ⟨rfl, rfl, rfl, rfl, rfl⟩

/-- Where the stored Jacobian is the one of the present iterate, a run beside makes it once more,
and is left as if it had used it again. -/
theorem Current.renew (hp : c.problem.Steady part) (hr : Current a c r)
    (h : Run.Beside (Matches part) (Policies tolerance) r t) :
    ∃ w, r.work.Matches part w ∧ (a.renew c).eval t = (.ok (), { t with
      work := w, ext := { t.ext with previousNorm := c.options.norm t.fu } }) := by
  have hwork := h.work
  obtain ⟨hscheme, hconcrete, hway, -, hreuse⟩ := h.ext.needs
  have hu : t.u = r.u ∧ t.fu = r.fu := by
    obtain ⟨work, ext, -, -, rfl⟩ := h
    exact ⟨rfl, rfl⟩
  obtain ⟨J, v, v', hJ, hstored, u, u', hu', hmethod, hmatrix, hfactors⟩ := hr.made
  obtain ⟨w₁, hw₁, hmatches⟩ := hp.jacobianAt_again hJ t.work
  have hkept : r.work.Matches part w₁ := by
    refine Matches.trans ?_ hmatches
    exact matches_of hwork.world hstored.symm hwork.method hwork.krylov hwork.matrix hwork.factors
      hwork.solves
  have hfactorized : w₁.system.Factorized c.backend (a.systemMatrix J) :=
    ⟨u, u', hu', hkept.method.trans hmethod, hkept.matrix.trans hmatrix,
      hkept.factors.trans hfactors⟩
  obtain ⟨w₂, hw₂, hagain⟩ : ∃ w₂, (LinearSystem.factorize c.backend (a.systemMatrix J)).eval w₁ =
      (.ok (), w₂) ∧ w₁.Matches part w₂ := hfactorized.again
  rw [← c.problem.jacobianAt_congr hscheme hconcrete, ← hu.1, ← hu.2] at hw₁
  have hneeded : NeedsJacobian c t = true := by
    simp [NeedsJacobian, JacobianSettings.needsRebuild, hreuse]
  refine ⟨w₂, hkept.trans hagain, ?_⟩
  rw [renew_built hneeded hw₁ hw₂, hu.1, ← hr.way, ← hway]

/-- Both runs solve for their direction alike. -/
theorem direction_beside (hp : c.problem.Steady part) (hB : c.backend.Steady) :
    Respects (Run.Beside (Matches part) (Policies tolerance)) (a.direction c) := by
  intro r t h
  have hjacobian := h.work.jacobian
  have hfu : t.fu = r.fu := by
    obtain ⟨work, ext, -, -, rfl⟩ := h
    rfl
  simp only [direction, alike_get_bind, hjacobian, hfu]
  exact ((respects_ofFault _).bind fun b =>
    Run.beside_onWork (LinearSystem.solve_matches hp hB b)) r t h

/-- Both runs move alike. -/
theorem advance_beside (hp : c.problem.Steady part) (du : Vec K) (alpha : R) :
    Respects (Run.Beside (Matches part) (Policies tolerance))
      (advance c du alpha : Stepping σ R K (State σ R K) Unit) := by
  refine Run.beside_get_bind (fun _ _ _ => rfl) fun r => ?_
  refine (Run.beside_modify fun _ _ _ => rfl).bind fun _ => ?_
  refine (Run.beside_onWork (hp.evaluate frame_matches _)).bind fun fu => ?_
  refine (Run.beside_moveTo _ _).bind fun _ => fun s t h => ?_
  obtain ⟨-, -, hway, -⟩ := h.ext.needs
  have hu : t.u = s.u := by
    obtain ⟨work, ext, -, -, rfl⟩ := h
    rfl
  simp only [alike_get_bind, hway]
  refine ((respects_ofFault _).bind fun way => beside_update ?_ ?_) s t h <;> intros <;> rfl

/-! ## Starts -/

/-- The run with another policy for its Jacobians. -/
def settled (reuse : Bool) (tolerance : R) (r : Run σ R K (State σ R K)) :
    Run σ R K (State σ R K) :=
  { r with ext := r.ext.withReuse reuse tolerance }

/-- Which policy is accepted does not matter at the start. -/
theorem start_withReuse {tolerance' : R} (reuse reuse' : Bool) (h : ¬tolerance < 0.0)
    (h' : ¬tolerance' < 0.0) (world : σ) :
    (Run.start (a.withReuse reuse tolerance).strategy c world).map (settled reuse' tolerance') =
      Run.start (a.withReuse reuse' tolerance').strategy c world := by
  have hprepared : ∀ u fu, ((a.withReuse reuse tolerance).start c u fu).map
      (fun x => (x.1, x.2.withReuse reuse' tolerance')) =
        (a.withReuse reuse' tolerance').start c u fu := by
    intro u fu
    have hvalid : (a.withReuse reuse tolerance).validate = a.search.search := if_neg h
    have hvalid' : (a.withReuse reuse' tolerance').validate = a.search.search := if_neg h'
    change (fun x : LinearSystem R K × State σ R K =>
      (x.1, x.2.withReuse reuse' tolerance')) <$> (a.withReuse reuse tolerance).start c u fu = _
    unfold Newton.start
    rw [hvalid, hvalid']
    by_cases hform : a.form = .direct
    · have hform' : ∀ reuse tolerance, (a.withReuse reuse tolerance).form = .direct :=
        fun _ _ => hform
      simp only [hform', if_true, map_bind, map_pure]
      rfl
    · have hform' : ∀ reuse tolerance, ¬(a.withReuse reuse tolerance).form = .direct :=
        fun _ _ => hform
      simp only [hform', if_false, map_bind, map_pure]
      rfl
  unfold Run.start
  split
  · rfl
  · dsimp only
    split
    · rfl
    · split
      · rfl
      · simp only [strategy, ← hprepared]
        rcases (a.withReuse reuse tolerance).start c _ _ with e | ⟨system, ext⟩ <;> rfl

/-- What a run with reuse begins with. -/
theorem Frugal.of_start {world : σ} (hsearch : ∀ s, a.search.search = .ok s → s.Sees part)
    (h : Run.start (a.withReuse true 0.0).strategy c world = .ok r) :
    Frugal (a.withReuse true 0.0) c part r ∧ r.ext.jacobians.reuse = true := by
  have hprepared := start_ok (Run.start_prepared h)
  exact ⟨⟨hsearch _ hprepared.search, hprepared.reuseTolerance, Run.start_answered h,
    .inl (Unbuilt.of_start h).jacobian⟩, hprepared.reuse⟩

end Renewals

section Exact

variable (𝕜 : Type) [RCLike 𝕜] [Entry Exact K] [ExactEntry 𝕜 K] {part : σ → τ}
  {a : Newton σ Exact K} {c : Setup σ Exact K} {r s t : Run σ Exact K (State σ Exact K)}
  {tolerance : Exact}

include 𝕜

/-- Where the policy asks for no new Jacobian, the stored one is that of the present iterate. -/
theorem Frugal.current_of_kept (hp : c.problem.Steady part) (hnorm : c.options.Definite)
    (hr : Frugal a c part r) (hneeded : NeedsJacobian c r = false) : Current a c r := by
  rcases hr.recent with hnone | ⟨v, fv, hmade⟩
  · simp [NeedsJacobian, JacobianSettings.needsRebuild, hnone] at hneeded
  · have hnear : ¬r.ext.jacobians.reuseTolerance < c.options.norm r.ext.way := by
      intro hfar
      simp [NeedsJacobian, JacobianSettings.needsRebuild, hfar] at hneeded
    rw [hr.tolerance, hmade.way] at hnear
    have hzero : (r.u - v).isZero = true := by
      cases h : (r.u - v).isZero with
      | true => rfl
      | false => exact (hnear (hnorm _ hmade.finite h)).elim
    obtain ⟨hu, hway⟩ := Vec.eq_of_sub_isZero 𝕜
      (hr.answered.size_eq.trans hmade.answered.size_eq.symm) hzero
    have hfu : r.fu = fv := hp.answered_inj hr.answered (hu ▸ hmade.answered)
    obtain ⟨J, w, w', hJ, hstored, hfactorized⟩ := hmade.made
    exact ⟨⟨J, w, w', by rw [hu, hfu]; exact hJ, hstored, hfactorized⟩, hmade.way.trans hway⟩

/-- After a step has got its Jacobian, that is the one of the present iterate. -/
theorem Frugal.current (hp : c.problem.Steady part) (hnorm : c.options.Definite)
    (hr : Frugal a c part r) (h : (a.renew c).eval r = (.ok (), s)) : Current a c s := by
  cases (renew_renewed r).ok h with
  | kept needed =>
    have hcurrent := hr.current_of_kept 𝕜 hp hnorm needed
    exact ⟨hcurrent.made, hcurrent.way⟩
  | built J w w' _ made factorized =>
    obtain ⟨hstored, -, -⟩ := Renewed.built_model made factorized
    exact ⟨⟨J, r.work, w, made, hstored, w, w', factorized, rfl, rfl, rfl⟩, rfl⟩

/-- What holds between the steps is kept by every step that has not failed. -/
theorem Frugal.step (hp : c.problem.Steady part) (hnorm : c.options.Definite)
    (hB : c.backend.Frames) (hr : Frugal a c part r)
    (hstep : (Run.step a.strategy c).eval r = (.ok (), t)) (ht : t.error = none) :
    Frugal a c part t := by
  obtain ⟨s, hs, hfinite⟩ := exists_stepped hstep ht
  have hcurrent := hr.current 𝕜 hp hnorm hs.renew
  have hrest := Run.eq_of_rest hs.renewed.rest
  have hu : s.u = r.u := by rw [hrest]
  have hfu : s.fu = r.fu := by rw [hrest]
  have hjacobians : s.ext.jacobians = r.ext.jacobians := by cases hs.renewed <;> rfl
  obtain ⟨J, w, w', hJ, hstored, v, v', hv, hmethod, hmatrix, hfactors⟩ := hcurrent.made
  obtain ⟨way, hway, hext⟩ := hs.ext
  have hmodel := hs.model hB
  have hwayed : way = r.u.zerosLike + (t.u - r.u) := by
    rw [Vec.increase_ok hway, hcurrent.way, hu]
  rw [hs.u] at hfinite hwayed
  obtain ⟨hsum, hfinite⟩ := Vec.zero_add_way 𝕜 hfinite
  rw [← hs.u] at hfinite hwayed hsum
  refine ⟨?_, ?_, hs.answered, .inr ⟨r.u, r.fu, hr.answered,
    ⟨J, w, w', ?_, ?_, v, v', hv, ?_, ?_, ?_⟩, ?_, hfinite⟩⟩
  · rw [hext]
    change s.ext.search.Sees part
    rw [hs.renewed.search]
    exact hr.search
  · rw [hs.previous.2]
    exact hr.tolerance
  · rw [hs.previous.2, ← hjacobians, ← hu, ← hfu]
    exact hJ
  · exact (congrArg (·.1) hmodel).trans hstored
  · exact (congrArg (·.2.2.method) hmodel).trans hmethod
  · exact (congrArg (·.2.2.matrix) hmodel).trans hmatrix
  · exact (congrArg (·.2.2.factors) hmodel).trans hfactors
  · rw [hext]
    exact hwayed.trans hsum

/-! ## Steps side by side -/

/-- Both runs get their Jacobian alike. -/
theorem renew_beside (hp : c.problem.Steady part) (hnorm : c.options.Definite)
    (hr : Frugal a c part r) (h : Run.Beside (Matches part) (Policies tolerance) r t) :
    Alike (Run.Beside (Matches part) (Policies tolerance)) (a.renew c) (a.renew c) r t := by
  cases hneeded : NeedsJacobian c r with
  | false =>
    obtain ⟨w, hw, ht⟩ := (hr.current_of_kept 𝕜 hp hnorm hneeded).renew hp h
    refine alike_of_eval (renew_kept hneeded) ht ?_
    obtain ⟨work, ext, -, ⟨hreuse, hzero, rfl⟩, rfl⟩ := h
    exact ⟨w, _, hw, ⟨hreuse, hzero, rfl⟩, rfl⟩
  | true =>
    obtain ⟨hscheme, hconcrete, -, -, hreuse⟩ := h.ext.needs
    have hneeded' : NeedsJacobian c t = true := by
      simp [NeedsJacobian, JacobianSettings.needsRebuild, hreuse]
    have hu : t.u = r.u ∧ t.fu = r.fu := by
      obtain ⟨work, ext, -, -, rfl⟩ := h
      exact ⟨rfl, rfl⟩
    simp only [renew, alike_get_bind]
    change Alike _ (if NeedsJacobian c r = true then _ else _)
      (if NeedsJacobian c t = true then _ else _) r t
    rw [if_pos hneeded, if_pos hneeded', hu.1, hu.2,
      c.problem.jacobianAt_congr hscheme hconcrete]
    refine (Run.beside_onWork (hp.jacobianAt _ _ _) r t h).bind (fun J s s' hs => ?_)
      (fun _ _ h => h)
    refine (Run.beside_onWork (LinearSystem.factorize_matches _ _) s s' hs).bind
      (fun _ s s' hs => ?_) (fun _ _ h => h)
    refine ((beside_update ?_ ?_).bind fun _ => beside_update ?_ ?_) s s' hs <;> intros <;> rfl

/-- A step ends alike on both runs. -/
theorem step_beside (hp : c.problem.Steady part) (hnorm : c.options.Definite)
    (hB : c.backend.Steady) (hr : Frugal a c part r)
    (h : Run.Beside (Matches part) (Policies tolerance) r t) :
    Alike (Run.Beside (Matches part) (Policies tolerance)) (a.step c) (a.step c) r t := by
  refine (renew_beside 𝕜 hp hnorm hr h).bind_eval (fun _ s s' hs _ hss => ?_) (fun _ _ h => h)
  have hsees : s.ext.search.Sees part := by
    rw [((renew_renewed r).ok hs).search]
    exact hr.search
  refine (direction_beside hp hB s s' hss).bind_eval (fun du q q' hq _ hqq => ?_) (fun _ _ h => h)
  have hkeeps : Keeps Run.ext (a.direction c) :=
    keeps_get.bind fun _ => (keeps_ofFault _).bind fun _ => fun _ => rfl
  have hext : q.ext = s.ext := (hkeeps.ends s).ok hq
  obtain ⟨-, -, -, hsearch, -⟩ := hqq.ext.needs
  have hu : q'.u = q.u ∧ q'.fu = q.fu := by
    obtain ⟨work, ext, -, -, rfl⟩ := hqq
    exact ⟨rfl, rfl⟩
  rw [alike_get_bind, hsearch, hu.1, hu.2, hext]
  refine (Run.beside_onWork (hsees.search hp _) q q' hqq).bind (fun alpha x y hxy => ?_)
    (fun _ _ h => h)
  exact ((advance_beside hp du alpha).bind fun _ => Run.beside_check.bind fun _ =>
    respects_pure _) x y hxy

/-! ## Runs side by side -/

/-- **Reuse without a tolerance.**  Let the functions of a problem answer the same each time and
leave alone what the line search looks at, and let the answers of the iterative method depend on the
products and the right-hand side only. Under a norm that is zero at zero only, the run with reuse
and the tolerance zero begins in the state in which the one without reuse begins, but for the
policy. Both take the same numbers of steps without a failure, and after them share everything but
the policy, the counters and the warnings. From there a further step ends alike on both, also if it
fails. -/
theorem zero_tolerance (a : Newton σ Exact K) (c : Setup σ Exact K) (world : σ) (part : σ → τ)
    (hp : c.problem.Steady part) (hsearch : ∀ s, a.search.search = .ok s → s.Sees part)
    (hB : c.backend.Steady) (hnorm : c.options.Definite) (haccepted : ¬a.reuseTolerance < 0.0) :
    (Run.start (a.withReuse true 0.0).strategy c world).map (settled false a.reuseTolerance) =
        Run.start (a.withReuse false a.reuseTolerance).strategy c world ∧
      ∀ r, Run.start (a.withReuse true 0.0).strategy c world = .ok r →
        ∀ n,
          (∀ s, Run.Paces (a.withReuse true 0.0).strategy c r n s →
            ∃ t, Run.Paces (a.withReuse false a.reuseTolerance).strategy c
                (settled false a.reuseTolerance r) n t ∧
              Run.Beside (Matches part) (Policies a.reuseTolerance) s t ∧
              Alike (Run.Beside (Matches part) (Policies a.reuseTolerance))
                (Run.step (a.withReuse true 0.0).strategy c)
                (Run.step (a.withReuse false a.reuseTolerance).strategy c) s t) ∧
          ∀ t, Run.Paces (a.withReuse false a.reuseTolerance).strategy c
              (settled false a.reuseTolerance r) n t →
            ∃ s, Run.Paces (a.withReuse true 0.0).strategy c r n s ∧
              Run.Beside (Matches part) (Policies a.reuseTolerance) s t := by
  have hzero : ¬(0.0 : Exact) < 0.0 := by simp
  refine ⟨start_withReuse true false hzero haccepted world, fun r hr => ?_⟩
  obtain ⟨hbegin, hreuse⟩ := Frugal.of_start hsearch hr
  have hbeside : Run.Beside (Matches part) (Policies a.reuseTolerance) r
      (settled false a.reuseTolerance r) := ⟨_, _, .refl _, ⟨hreuse, hbegin.tolerance, rfl⟩, rfl⟩
  have hfrugal : ∀ n s, Run.Paces (a.withReuse true 0.0).strategy c r n s →
      Frugal (a.withReuse true 0.0) c part s := fun n s hs =>
    hs.invariant hbegin fun s t hs => hs.step 𝕜 hp hnorm hB.frames
  have halike : ∀ s t, Frugal (a.withReuse true 0.0) c part s →
      Run.Beside (Matches part) (Policies a.reuseTolerance) s t →
        Alike (Run.Beside (Matches part) (Policies a.reuseTolerance))
          (Run.step (a.withReuse true 0.0).strategy c)
          (Run.step (a.withReuse false a.reuseTolerance).strategy c) s t := fun s t hs h =>
    Run.step_alike_beside (fun u => hp.evaluate frame_matches u) h
      (step_beside 𝕜 hp hnorm hB hs h)
  intro n
  obtain ⟨hforth, hback⟩ := Run.paces_beside hbeside hfrugal halike n
  refine ⟨fun s hs => ?_, hback⟩
  obtain ⟨t, ht, hst⟩ := hforth s hs
  exact ⟨t, ht, hst, halike s t (hfrugal n s hs) hst⟩

end Exact

/-- The residual of the identity with an iterative method that starts from zero each time. -/
noncomputable def restartingSetup : Setup Unit Exact Exact :=
  { halvingSetup with backend := Backend.standard.restarting }

theorem restarting_agrees :
    restartingSetup.problem.Steady (id : Unit → Unit) ∧ restartingSetup.backend.Steady ∧
      restartingSetup.options.Definite ∧
      ∃ r, Run.start (frugal.withReuse true 0.0).strategy restartingSetup () = .ok r ∧
        ∀ n s, Run.Paces (frugal.withReuse true 0.0).strategy restartingSetup r n s →
          ∃ t, Run.Paces (frugal.withReuse false frugal.reuseTolerance).strategy restartingSetup
              (settled false frugal.reuseTolerance r) n t ∧
            Run.Beside (Matches id) (Policies frugal.reuseTolerance) s t := by
  have haccepted : ¬frugal.reuseTolerance < 0.0 := by
    rw [frugal_tolerance, ofScientific_eq, real_lt]
    norm_num
  have hproblem : restartingSetup.problem.Steady (id : Unit → Unit) :=
    ⟨fun _ _ _ => ⟨fun _ _ => rfl, fun _ => rfl⟩, fun _ _ _ => ⟨fun _ _ => rfl, fun _ => rfl⟩,
      fun _ _ _ => ⟨fun _ _ => rfl, fun _ => rfl⟩⟩
  have hbackend : restartingSetup.backend.Steady := Backend.restarting_steady _
  have hnorm : restartingSetup.options.Definite := Options.definite_euclidean ℝ rfl
  obtain ⟨hstart, hruns⟩ := zero_tolerance ℝ frugal restartingSetup () id hproblem
    (fun _ _ _ _ _ _ _ _ => ⟨rfl, rfl⟩) hbackend hnorm haccepted
  obtain ⟨r₀, hr₀⟩ := halving_starts
  have hstarts : Run.start (frugal.withReuse true frugal.reuseTolerance).strategy
      restartingSetup () = .ok r₀ := hr₀
  have hzero := start_withReuse (a := frugal) (c := restartingSetup) true true haccepted
    (by simp : ¬(0.0 : Exact) < 0.0) ()
  rw [hstarts] at hzero
  refine ⟨hproblem, hbackend, hnorm, _, hzero.symm, fun n s hs => ?_⟩
  obtain ⟨t, ht, hst, -⟩ := (hruns _ hzero.symm n).1 s hs
  exact ⟨t, ht, hst⟩

end Newton

end RootFinding
