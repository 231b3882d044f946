import RootFinding.Proofs.Containment

/-!
# Faults of Levenberg-Marquardt steps

Besides the faults of its linear system a Levenberg-Marquardt step ends in a fault only where the
second order correction divides by a difference of zero, or where the uphill rule takes a power
that is no finite real number.

The invariant is `LevenbergMarquardt.Holds`: what is kept for the next step is a Jacobian that
serves, and its gram matrix.
-/

namespace RootFinding.LevenbergMarquardt

open Action

variable {σ R K : Type} [Scalar R] [Entry R K] {P : K → Prop} {m : Nat} {c : Setup σ R K}
  {a : LevenbergMarquardt R} {s₀ : LinearSystem R K} {j : JacobianSettings R}

/-- The faults of a step, with a linear system that was chosen as `s₀`. -/
inductive Escapes (a : LevenbergMarquardt R) (P : K → Prop) (s₀ : LinearSystem R K) : Fault → Prop
  | system {f : Fault} (fault : s₀.Escapes True (Entry.IsComplex P) False f) : Escapes a P s₀ f
  | difference (active : a.geodesic.active) (zero : Scalar.same a.geodesic.difference 0.0) :
    Escapes a P s₀ .zeroDivision
  | power {f : Fault} (v : Vec K) (last : Option (Vec K))
    (fault : Checked.pow (1.0 - cosine v last) a.uphill = .error f) : Escapes a P s₀ f

/-- What holds between the steps. -/
structure Holds (c : Setup σ R K) (P : K → Prop) (m : Nat) (s₀ : LinearSystem R K)
    (j : JacobianSettings R) (w : Workspace σ R K) (s : State R K) : Prop where
  jacobians : s.jacobians = j
  scaling : ∀ x ∈ s.scaling.toList, P x
  system : s₀.Continues P c.problem.size True False w.system
  kept : s.renew = false →
    ∃ J, w.jacobian = some J ∧ s.gram = some J.gram ∧ c.problem.Serves P m j J

/-- The linear system is ready to solve for the unknowns. -/
def Solvable (c : Setup σ R K) (P : K → Prop) (s : LinearSystem R K) : Prop :=
  ∃ A M, s.Ready A M ∧ A.Fits P c.problem.size c.problem.size ∧ ¬A.IsFree

/-- What holds between the parts of a step, with the Jacobian `J`. -/
structure Works (c : Setup σ R K) (P : K → Prop) (m : Nat) (s₀ : LinearSystem R K)
    (j : JacobianSettings R) (J : Matrix R K) (r : Run σ R K (State R K)) : Prop where
  going : r.Going c P m
  holds : Holds c P m s₀ j r.work r.ext
  fits : J.Fits P m c.problem.size
  concrete : ¬J.IsFree
  solvable : Solvable c P r.work.system

variable {r : Run σ R K (State R K)} {J : Matrix R K}

theorem renewJacobian_ends (hc : c.Fits P m) (hj : c.problem.isMatrixFree j = false)
    (hr : r.Going c P m) (h : Holds c P m s₀ j r.work r.ext) :
    (renewJacobian c).Ends r
      (fun _ t => t.Going c P m ∧ Holds c P m s₀ j t.work t.ext ∧ t.ext.renew = false)
      (fun e t => t.Aborted c P m (Escapes a P s₀) e) := by
  simp only [renewJacobian, ends_bind, ends_get, Run.ends_update]
  rw [h.jacobians]
  refine (Run.jacobianAt_going hc hr j).mono (fun J t ht => ?_) (fun _ _ he => he)
  rcases ht with ⟨w, rfl, hstored, hsystem, hserves⟩
  obtain ⟨hgram, -⟩ := Matrix.gram_fits hc.closed hserves.fits (hserves.not_isFree hj)
  refine ⟨hr.of_core rfl rfl rfl rfl,
    ⟨h.jacobians, ?_, ?_, fun _ => ⟨J, hstored, rfl, hserves⟩⟩, trivial⟩
  · exact Vec.zipWith_all h.scaling (Matrix.diagonal_all hc.closed hgram)
      fun _ _ => hc.closed.maximum
  · rw [hsystem]
    exact h.system

/-- The damped matrix of the normal equations. -/
theorem damped_fits (hP : Entry.Closed P) (hserves : c.problem.Serves P m j J) (hfree : ¬J.IsFree)
    {s : State R K} (hscaling : ∀ x ∈ s.scaling.toList, P x) :
    (J.gram.addDiagonal (s.damping • s.scaling)).Fits P c.problem.size c.problem.size ∧
      ¬(J.gram.addDiagonal (s.damping • s.scaling)).IsFree := by
  obtain ⟨hgram, hgramFree⟩ := Matrix.gram_fits hP hserves.fits hfree
  have hdamped : ∀ x ∈ (s.damping • s.scaling : Vec K).toList, P x := by
    intro x hx
    obtain ⟨y, hy, rfl⟩ := List.mem_map.1 hx
    exact hP.mul (hP.ofReal _) (hscaling y hy)
  obtain ⟨hfits, hsame⟩ := Matrix.addDiagonal_fits hP hgram hdamped
  exact ⟨hfits, fun h => hgramFree (hsame.1 h)⟩

theorem velocity_ends (hc : c.Fits P m) (hj : c.problem.isMatrixFree j = false)
    (hr : r.Going c P m) (h : Holds c P m s₀ j r.work r.ext)
    (hserves : c.problem.Serves P m j J) :
    (velocity c J J.gram).Ends r
      (fun v t => v.Fits P c.problem.size ∧ Works c P m s₀ j J t)
      (fun e t => t.Aborted c P m (Escapes a P s₀) e) := by
  have hfree : ¬J.IsFree := hserves.not_isFree hj
  obtain ⟨gradient, hgradient, hgradientFits⟩ :=
    Matrix.applyTranspose_fits hc.closed hserves.fits hfree hr.fu
  obtain ⟨hfits, hsystemFree⟩ := damped_fits hc.closed hserves hfree h.scaling
  have hr' : Run.Going c P m { r with ext := { r.ext with gradient := some gradient } } :=
    hr.of_core rfl rfl rfl rfl
  simp only [velocity, ends_bind, ends_get, ends_ofFault_ok hgradient, Run.ends_update, ends_pure]
  refine (Run.factorize_going hr' h.system hfits (iff_of_true trivial rfl)
    (iff_of_false hsystemFree id) False.elim).mono (fun _ t ht => ?_)
    (fun _ _ he => he.mono fun _ hf => .system hf)
  rcases ht with ⟨w₁, rfl, hstored₁, hcontinues₁, M, hready⟩
  refine (Run.solve_going hc (hr'.withWork w₁) hcontinues₁ hready hfits (iff_of_true trivial rfl)
    hgradientFits (by simp) fun hisFree => (hsystemFree hisFree).elim).mono (fun x t ht => ?_)
    (fun _ _ he => he.mono fun _ hf => .system hf)
  rcases ht with ⟨w₂, rfl, hx, hstored₂, hcontinues₂, hready₂⟩
  refine ⟨hx.neg hc.closed, hr'.withWork w₂, ?_, hserves.fits, hfree, _, M, hready₂, hfits,
    hsystemFree⟩
  refine ⟨h.jacobians, h.scaling, hcontinues₂, ?_⟩
  rw [hstored₂, hstored₁]
  exact h.kept

/-- An evaluation between the parts of a step. -/
theorem Works.of_evaluated {w : Workspace σ R K} (h : Works c P m s₀ j J r)
    (hstored : w.jacobian = r.work.jacobian) (hsystem : w.system = r.work.system) :
    Works c P m s₀ j J { r with work := w } := by
  refine ⟨h.going.withWork w, ⟨h.holds.jacobians, h.holds.scaling, ?_, ?_⟩, h.fits, h.concrete, ?_⟩
  · rw [hsystem]
    exact h.holds.system
  · rw [hstored]
    exact h.holds.kept
  · rw [hsystem]
    exact h.solvable

/-- A solve between the parts of a step. -/
theorem Works.solve_ends (h : Works c P m s₀ j J r) (hc : c.Fits P m) {b : Vec K}
    (hb : b.Fits P c.problem.size) :
    (Run.onWork (LinearSystem.solve c.backend c.problem.evaluate b)).Ends r
      (fun x t => x.Fits P c.problem.size ∧ Works c P m s₀ j J t)
      (fun e t => t.Aborted c P m (Escapes a P s₀) e) := by
  obtain ⟨A, M, hready, hA, hfree⟩ := h.solvable
  refine (Run.solve_going hc h.going h.holds.system hready hA (iff_of_true trivial rfl) hb nofun
    fun hisFree => (hfree hisFree).elim).mono (fun x t ht => ?_)
    (fun _ _ he => he.mono fun _ hf => .system hf)
  rcases ht with ⟨w, rfl, hx, hstored, hcontinues, hready'⟩
  refine ⟨hx, h.going.withWork w, ⟨h.holds.jacobians, h.holds.scaling, hcontinues, ?_⟩, h.fits,
    h.concrete, A, M, hready', hA, hfree⟩
  rw [hstored]
  exact h.holds.kept

theorem correction_ends (hc : c.Fits P m) (hactive : a.geodesic.active) {v : Vec K}
    (hv : v.Fits P c.problem.size) (h : Works c P m s₀ j J r) :
    (a.correction c J v).Ends r
      (fun x t => (∀ w ∈ x, w.Fits P c.problem.size) ∧ Works c P m s₀ j J t)
      (fun e t => t.Aborted c P m (Escapes a P s₀) e) := by
  have hahead : (r.u + a.geodesic.difference • v).Fits P c.problem.size :=
    h.going.u.add hc.closed (hv.smul hc.closed _)
  simp only [correction, ends_bind, ends_get]
  refine (Run.evaluate_going hc h.going hahead).mono (fun ahead t ht => ?_) (fun _ _ he => he)
  rcases ht with ⟨w₁, rfl, hfu, hstored₁, hsystem₁⟩
  have h₁ := h.of_evaluated hstored₁ hsystem₁
  split
  · exact ⟨by simp, h₁⟩
  · simp only [ends_bind]
    rcases htwice : Checked.div 2.0 a.geodesic.difference with f | twice
    · obtain ⟨hzero, rfl⟩ := Checked.div_error htwice
      refine ⟨h₁.going.toFits, fun f hf => ?_⟩
      cases hf
      exact .difference hactive hzero
    · rw [ends_ofFault_ok rfl]
      refine (Run.apply_going hc h₁.going h.fits h.concrete hv).mono (fun slope t ht => ?_)
        (fun _ _ he => he)
      rcases ht with ⟨w₂, rfl, hslope, hstored₂, hsystem₂⟩
      have h₂ := h₁.of_evaluated hstored₂ hsystem₂
      have hside : (twice • ((ahead - r.fu).divideBy a.geodesic.difference - slope) : Vec K).Fits
          P m :=
        (((hfu.sub hc.closed h.going.fu).divideBy hc.closed _).sub hc.closed hslope).smul
          hc.closed _
      obtain ⟨b, hb, hbFits⟩ := Matrix.applyTranspose_fits hc.closed h.fits h.concrete hside
      rw [ends_ofFault_ok hb]
      refine (h₂.solve_ends hc hbFits).mono (fun x t ht => ⟨?_, ht.2⟩) (fun _ _ he => he)
      intro _ hx
      cases hx
      exact ht.1.neg hc.closed

theorem correctedStep_ends (hc : c.Fits P m) {v : Vec K} (hv : v.Fits P c.problem.size)
    (h : Works c P m s₀ j J r) :
    (a.correctedStep c J v).Ends r
      (fun x t => (∀ w ∈ x, w.Fits P c.problem.size) ∧ Works c P m s₀ j J t)
      (fun e t => t.Aborted c P m (Escapes a P s₀) e) := by
  unfold correctedStep
  split
  · refine ⟨?_, h⟩
    intro _ hx
    cases hx
    exact hv
  next hactive =>
    refine (correction_ends hc (by simpa using hactive) hv h).bind (fun x t ht => ?_)
      (fun _ _ he => he)
    rcases ht with ⟨hx, ht⟩
    cases x with
    | none => exact ⟨by simp, ht⟩
    | some w =>
      dsimp only
      split
      · refine ⟨?_, ht⟩
        intro _ hx
        cases hx
        exact hv.add hc.closed ((hx w rfl).divideBy hc.closed _)
      · exact ⟨by simp, ht⟩

/-- The uphill rule fails only where its power does. -/
theorem accepts_error {s : State R K} {v : Vec K} {loss : R} {f : Fault}
    (h : a.accepts s v loss = .error f) :
    Checked.pow (1.0 - cosine v s.velocity) a.uphill = .error f := by
  unfold accepts at h
  dsimp only at h
  split at h
  · cases h
  · rcases Fault.bind_error h with hpower | ⟨weight, -, h⟩
    · exact hpower
    · cases h

theorem attempt_ends (hc : c.Fits P m) {v du : Vec K} (hdu : du.Fits P c.problem.size)
    (hr : r.Going c P m) (h : Holds c P m s₀ j r.work r.ext) :
    (a.attempt c v du).Ends r
      (fun _ t => t.Going c P m ∧ Holds c P m s₀ j t.work t.ext)
      (fun e t => t.Aborted c P m (Escapes a P s₀) e) := by
  have hu : (r.u + du).Fits P c.problem.size := hr.u.add hc.closed hdu
  simp only [attempt, ends_bind, ends_get]
  refine (Run.evaluate_going hc hr hu).mono (fun fu t ht => ?_) (fun _ _ he => he)
  rcases ht with ⟨w, rfl, hfu, hstored, hsystem⟩
  have hcontinues : s₀.Continues P c.problem.size True False w.system := by
    rw [hsystem]
    exact h.system
  rcases htaken : a.accepts r.ext v (c.options.norm fu) with f | taken
  · rw [ends_ofFault_error rfl]
    refine ⟨(hr.withWork w).toFits, fun f hf => ?_⟩
    cases hf
    exact .power v _ (accepts_error htaken)
  · rw [ends_ofFault_ok rfl]
    split
    · simp only [ends_bind, ends_modify, Run.ends_moveTo, Run.ends_update, ends_pure]
      exact ⟨⟨⟨hu, hr.u, hfu, hr.remembers, hr.settings⟩, hr.error, hr.code⟩, h.jacobians,
        h.scaling, hcontinues, by simp⟩
    · refine ⟨hr.withWork w, h.jacobians, h.scaling, hcontinues, ?_⟩
      rw [hstored]
      exact h.kept

theorem settle_ends (taken : Bool) (hr : r.Going c P m) (h : Holds c P m s₀ j r.work r.ext) :
    (a.settle taken).Ends r
      (fun _ t => t.Going c P m ∧ Holds c P m s₀ j t.work t.ext)
      (fun e t => t.Aborted c P m (c.options.termination.Escapes m c.problem.size) e) := by
  have hadapt : ∀ t : Run σ R K (State R K), t.Going c P m → Holds c P m s₀ j t.work t.ext →
      (do a.adapt; let _ ← Run.check : Stepping σ R K (State R K) Unit).Ends t
        (fun _ t => t.Going c P m ∧ Holds c P m s₀ j t.work t.ext)
        (fun e t => t.Aborted c P m (c.options.termination.Escapes m c.problem.size) e) := by
    intro t ht hholds
    have hadapted : Run.Going c P m { t with
        alpha := t.ext.damping
        ext := { t.ext with damping := t.ext.damping * t.ext.factor, factor := a.increase } } :=
      ht.of_core rfl rfl rfl rfl
    simp only [adapt, ends_bind, ends_modify]
    refine (Run.check_going hadapted).mono (fun _ t' ht' => ?_) (fun _ _ he => he)
    rcases ht' with ⟨ht', -, -, -, -, hwork, hext⟩
    rw [ends_pure, hwork, hext]
    exact ⟨ht', hholds.jacobians, hholds.scaling, hholds.system, hholds.kept⟩
  unfold settle
  split
  · simp only [ends_bind, ends_get, Run.ends_notice]
    have hnotice := hadapt (r.printing "notice"
      ("Step rejected: λ = " ++ Written.write (.general 4) r.ext.damping))
      (hr.of_core rfl rfl rfl rfl) ⟨h.jacobians, h.scaling, h.system, h.kept⟩
    simpa only [ends_bind] using hnotice
  · exact hadapt r hr h

/-- A Levenberg-Marquardt step ends in no other faults. -/
theorem contained (a : LevenbergMarquardt R) (hc : c.Fits P m)
    (hj : c.problem.isMatrixFree j = false) :
    (a.strategy : Strategy σ R K (State R K)).Contained c P m
      (fun w _ s => Holds c P m s₀ j w s)
      fun _ f => c.options.termination.Escapes m c.problem.size f ∨ Escapes a P s₀ f := by
  intro r hr h
  simp only [strategy, step, ends_bind, ends_get]
  refine Ends.guard
    (I := fun t => t.Going c P m ∧ Holds c P m s₀ j t.work t.ext ∧ t.ext.renew = false)
    (fun _ => ?_) (fun hkept => ⟨hr, h, by simpa using hkept⟩) (fun r₁ h₁ => ?_)
  · exact (renewJacobian_ends hc hj hr h).mono (fun _ _ ht => ht)
      (fun _ _ he => he.mono fun _ => .inr)
  · rcases h₁ with ⟨hr₁, h₁, hrenew⟩
    obtain ⟨J, hstored, hgram, hserves⟩ := h₁.kept hrenew
    have hkept : kept r₁ = .ok (J, J.gram) := by simp only [kept, hstored, hgram]
    simp only [ends_bind, ends_get, ends_ofFault_ok hkept]
    refine (velocity_ends hc hj hr₁ h₁ hserves).mono (fun v r₂ h₂ => ?_)
      (fun _ _ he => he.mono fun _ => .inr)
    rcases h₂ with ⟨hv, h₂⟩
    refine (correctedStep_ends hc hv h₂).mono (fun x r₃ h₃ => ?_)
      (fun _ _ he => he.mono fun _ => .inr)
    rcases h₃ with ⟨hx, h₃⟩
    cases x with
    | none =>
      rw [ends_bind, ends_pure]
      exact (settle_ends false h₃.going h₃.holds).mono (fun _ _ ht => ht)
        (fun _ _ he => he.mono fun _ => .inl)
    | some du =>
      refine (attempt_ends hc (hx du rfl) h₃.going h₃.holds).bind (fun taken t ht => ?_)
        (fun _ _ he => he.mono fun _ => .inr)
      exact (settle_ends taken ht.1 ht.2).mono (fun _ _ ht => ht)
        (fun _ _ he => he.mono fun _ => .inl)

/-- What a start leaves for the first step. -/
theorem start_holds (hc : c.Fits P m) {fu : Vec K} {w : Workspace σ R K} {s : State R K}
    (h : a.start c c.problem.guess.entries fu = .ok (w.system, s)) :
    Holds c P m w.system s.jacobians w s ∧ c.problem.isMatrixFree s.jacobians = false := by
  have hprepared := start_ok h
  have hformed : c.problem.isMatrixFree s.jacobians = false := by
    simp [Problem.isMatrixFree, hprepared.concrete]
  have hcontinues : w.system.Continues P c.problem.size True _ w.system :=
    SystemChoice.system_continues hprepared.system
  refine ⟨⟨rfl, ?_, ?_, by simp [hprepared.renew]⟩, hformed⟩
  · rw [hprepared.scaling]
    exact (Vec.fits_replicate (n := c.problem.guess.entries.size)
      (hc.closed.ofReal a.scaling)).all
  · exact ⟨hcontinues.krylov, hcontinues.unchosen, hcontinues.picks, by simp, hcontinues.last⟩

end RootFinding.LevenbergMarquardt
