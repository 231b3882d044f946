import RootFinding.Proofs.Containment

/-!
# Faults of Newton steps

Besides the faults of its linear system a Newton step ends in a fault only where the way of a real
iterate since the last Jacobian is extended by a complex step.

The invariant is `Newton.Holds`: the stored Jacobian serves, and the linear system is ready to
solve with the matrix that belongs to it.
-/

namespace RootFinding.Newton

open Action

variable {σ R K : Type} [Scalar R] [Entry R K] {P : K → Prop} {m : Nat} {c : Setup σ R K}
  {a : Newton σ R K} {s₀ : LinearSystem R K} {j : JacobianSettings R} {finite : Prop}

/-- The faults of a step, with a linear system that was chosen as `s₀`. All systems may be known to
be `finite`. -/
inductive Escapes (P : K → Prop) (s₀ : LinearSystem R K) (finite : Prop) : Fault → Prop
  | system {f : Fault} (fault : s₀.Escapes True (Entry.IsComplex P) finite f) :
    Escapes P s₀ finite f
  | way (entries : Entry.IsComplex P) : Escapes P s₀ finite .complexValue

/-- The system has as many equations as unknowns: those of the problem, or those of the normal
equations, which need the entries of the Jacobian. -/
structure Suits (a : Newton σ R K) (c : Setup σ R K) (m : Nat) (j : JacobianSettings R) : Prop where
  direct : a.form = .direct → m = c.problem.size
  normal : a.form = .normal → c.problem.isMatrixFree j = false

/-- The systems are finite as long as the residuals are: they are those of the Jacobian itself. -/
structure IsFinite (K : Type) [Entry R K] (a : Newton σ R K) : Prop where
  direct : a.form = .direct
  zero : ∀ real, Entry.isFinite (Entry.zeroAs real : K) = true

/-- What holds between the steps. -/
structure Holds (a : Newton σ R K) (c : Setup σ R K) (P : K → Prop) (m : Nat)
    (s₀ : LinearSystem R K) (j : JacobianSettings R) (finite : Prop) (w : Workspace σ R K)
    (fu : Vec K) (s : State σ R K) : Prop where
  jacobians : s.jacobians = j
  way : s.way.Fits P c.problem.size
  system : s₀.Continues P c.problem.size True (c.problem.isMatrixFree j = true) w.system
  ready : ∀ J ∈ w.jacobian, c.problem.Serves P m j J ∧ ∃ M, w.system.Ready (a.systemMatrix J) M
  finite : finite → fu.isFinite = true

theorem systemMatrix_fits (hP : Entry.Closed P) (ha : a.Suits c m j) {J : Matrix R K}
    (hJ : c.problem.Serves P m j J) :
    (a.systemMatrix J).Fits P c.problem.size c.problem.size ∧
      ((a.systemMatrix J).IsFree ↔ c.problem.isMatrixFree j = true) := by
  unfold systemMatrix
  split
  next hdirect =>
    have hfits := hJ.fits
    rw [ha.direct hdirect] at hfits
    exact ⟨hfits, hJ.free⟩
  next hnormal =>
    have hconcrete := ha.normal hnormal
    obtain ⟨hfits, hgram⟩ := Matrix.gram_fits hP hJ.fits (hJ.not_isFree hconcrete)
    exact ⟨hfits, iff_of_false hgram (by rw [hconcrete]; exact Bool.false_ne_true)⟩

/-- The right-hand side has an entry for each unknown; it is the residual if the system is that of
the Jacobian. -/
theorem rightSide_fits (hP : Entry.Closed P) (ha : a.Suits c m j) {J : Matrix R K}
    (hJ : c.problem.Serves P m j J) {fu : Vec K} (hfu : fu.Fits P m) :
    ∃ b, a.rightSide (some J) fu = .ok b ∧ b.Fits P c.problem.size ∧
      (a.form = .direct → b = fu) := by
  unfold rightSide
  split
  next hdirect =>
    rw [ha.direct hdirect] at hfu
    exact ⟨fu, rfl, hfu, fun _ => rfl⟩
  next hnormal hsome =>
    cases hsome
    obtain ⟨b, hb, hbfits⟩ :=
      Matrix.applyTranspose_fits hP hJ.fits (hJ.not_isFree (ha.normal hnormal)) hfu
    refine ⟨b, hb, hbfits, fun hdirect => ?_⟩
    rw [hnormal] at hdirect
    cases hdirect
  next hnone => cases hnone

theorem IsFinite.toDense (hfinite : a.IsFinite K) {J : Matrix R K}
    (hJ : c.problem.Serves P m j J) {D : Dense K} (hD : (a.systemMatrix J).toDense? = some D) :
    Dense.isFinite D = true := by
  simp only [systemMatrix, hfinite.direct] at hD
  exact Matrix.isFinite_toDense hfinite.zero hJ.fits hJ.finite hD

/-- Only the Jacobian itself is used without its entries, and then there are as many equations as
unknowns. -/
theorem Suits.evaluate_fits (ha : a.Suits c m j) (hc : c.Fits P m)
    (hj : c.problem.isMatrixFree j = true) (k : Option (Matrix R K) × LinearSystem R K) :
    Difference.Field.Fits (fun w => w.machinery = k) P c.problem.size c.problem.size
      c.problem.evaluate := by
  have hdirect : a.form = .direct := by
    cases hform : a.form with
    | direct => rfl
    | normal =>
      rw [ha.normal hform] at hj
      cases hj
  have hanswers := hc.answers
  rw [ha.direct hdirect] at hanswers
  exact Problem.evaluate_fits hanswers hc.shape k

variable {r : Run σ R K (State σ R K)}

theorem renew_ends (hc : c.Fits P m) (ha : a.Suits c m j) (hr : r.Going c P m)
    (h : a.Holds c P m s₀ j finite r.work r.fu r.ext) :
    (a.renew c).Ends r
      (fun _ t => t.Going c P m ∧ a.Holds c P m s₀ j finite t.work t.fu t.ext ∧
        ∃ J, t.work.jacobian = some J)
      (fun e t => t.Aborted c P m (Escapes P s₀ finite) e) := by
  simp only [renew, ends_bind, ends_get]
  split
  next =>
    simp only [ends_bind, Run.ends_update]
    rw [h.jacobians]
    refine (Run.jacobianAt_going hc hr j).mono (fun J t ht => ?_) (fun _ _ he => he)
    rcases ht with ⟨w, rfl, hstored, hsystem, hserves⟩
    obtain ⟨hfits, hfree⟩ := systemMatrix_fits hc.closed ha hserves
    have hcontinues : s₀.Continues P c.problem.size True (c.problem.isMatrixFree j = true)
        w.system := by
      rw [hsystem]
      exact h.system
    refine (Run.factorize_going (hr.withWork w) hcontinues hfits (iff_of_true trivial rfl) hfree
      fun _ => trivial).mono (fun _ t ht => ?_) (fun _ _ he => he.mono fun _ hf => .system hf)
    rcases ht with ⟨w', rfl, hkept, hcontinues', hready⟩
    have hstored' : w'.jacobian = some J := hkept.trans hstored
    refine ⟨hr.of_core rfl rfl rfl rfl, ⟨h.jacobians, ?_, hcontinues', ?_, h.finite⟩, J, hstored'⟩
    · exact hr.u.zerosLike hc.closed
    · intro J' hJ'
      rw [hstored'] at hJ'
      cases hJ'
      exact ⟨hserves, hready⟩
  next hkept =>
    refine ⟨hr.of_core rfl rfl rfl rfl, ⟨h.jacobians, h.way, h.system, h.ready, h.finite⟩, ?_⟩
    rcases hJ : r.work.jacobian with _ | J
    · simp [JacobianSettings.needsRebuild, hJ] at hkept
    · exact ⟨J, rfl⟩

theorem direction_ends (hc : c.Fits P m) (ha : a.Suits c m j) (hfinite : finite → a.IsFinite K)
    (hr : r.Going c P m) (h : a.Holds c P m s₀ j finite r.work r.fu r.ext) {J : Matrix R K}
    (hJ : r.work.jacobian = some J) :
    (a.direction c).Ends r
      (fun du t => du.Fits P c.problem.size ∧ t.Going c P m ∧
        a.Holds c P m s₀ j finite t.work t.fu t.ext)
      (fun e t => t.Aborted c P m (Escapes P s₀ finite) e) := by
  obtain ⟨hserves, M, hready⟩ := h.ready J hJ
  obtain ⟨hfits, hfree⟩ := systemMatrix_fits hc.closed ha hserves
  obtain ⟨b, hb, hbfits, hbdirect⟩ := rightSide_fits hc.closed ha hserves hr.fu
  have hall : finite → (∀ D, (a.systemMatrix J).toDense? = some D → Dense.isFinite D = true) ∧
      b.isFinite = true := by
    intro hf
    rw [hbdirect (hfinite hf).direct]
    exact ⟨fun D hD => (hfinite hf).toDense hserves hD, h.finite hf⟩
  simp only [direction, ends_bind, ends_get, hJ, ends_ofFault_ok hb]
  refine (Run.solve_going hc hr h.system hready hfits (iff_of_true trivial rfl) hbfits hall
    fun hisFree => ha.evaluate_fits hc (hfree.1 hisFree)).mono (fun x t ht => ?_)
    (fun _ _ he => he.mono fun _ hf => .system hf)
  rcases ht with ⟨w, rfl, hx, hstored, hcontinues, hready'⟩
  refine ⟨hx, hr.withWork w, h.jacobians, h.way, hcontinues, ?_, h.finite⟩
  intro J' hJ'
  rw [hstored, hJ] at hJ'
  cases hJ'
  exact ⟨hserves, M, hready'⟩

theorem increase_fits (hP : Entry.Closed P) {n : Nat} {u v : Vec K} (hu : u.Fits P n)
    (hv : v.Fits P n) :
    (∃ w, u.increase v = .ok w ∧ w.Fits P n) ∨
      (u.increase v = .error .complexValue ∧ Entry.IsComplex P) := by
  unfold Vec.increase
  split
  next hmixed =>
    simp only [Bool.and_eq_true, Bool.not_eq_true'] at hmixed
    exact .inr ⟨rfl, hv.exists_not_isReal hmixed.2⟩
  next => exact .inl ⟨_, rfl, hu.add hP hv⟩

theorem advance_ends (hc : c.Fits P m) {du : Vec K} (hdu : du.Fits P c.problem.size) (alpha : R)
    (hr : r.Going c P m) (h : a.Holds c P m s₀ j finite r.work r.fu r.ext) :
    (advance c du alpha).Ends r
      (fun _ t => t.Going c P m ∧ a.Holds c P m s₀ j False t.work t.fu t.ext)
      (fun e t => t.Aborted c P m (Escapes P s₀ finite) e) := by
  have hstep : (alpha • du : Vec K).Fits P c.problem.size := hdu.smul hc.closed alpha
  have hu : (r.u - alpha • du).Fits P c.problem.size := hr.u.sub hc.closed hstep
  have hr' : Run.Going c P m { r with previous := r.u, du, alpha } :=
    ⟨⟨hr.u, hr.u, hr.fu, hr.remembers, hr.settings⟩, hr.error, hr.code⟩
  simp only [advance, ends_bind, ends_get, ends_modify]
  refine (Run.evaluate_going hc hr' hu).mono (fun fu t ht => ?_) (fun _ _ he => he)
  rcases ht with ⟨w, rfl, hfu, hstored, hsystem⟩
  have hgoing : ∀ ext : State σ R K, Run.Going c P m
      { r with previous := r.u, du, alpha, u := r.u - alpha • du, fu, work := w, ext } :=
    fun ext => ⟨⟨hu, hr.u, hfu, hr.remembers, hr.settings⟩, hr.error, hr.code⟩
  simp only [Run.ends_moveTo, Run.ends_update]
  rcases increase_fits hc.closed h.way (hu.sub hc.closed hr.u) with ⟨way, hway, hfits⟩ | ⟨hway, hP⟩
  · rw [ends_ofFault_ok hway]
    refine ⟨hgoing _, h.jacobians, hfits, ?_, ?_, by simp⟩
    · rw [hsystem]
      exact h.system
    · rw [hstored, hsystem]
      exact h.ready
  · rw [ends_ofFault_error hway]
    refine ⟨(hgoing _).toFits, fun f hf => ?_⟩
    cases hf
    exact .way hP

/-- A Newton step ends in no other faults. -/
theorem contained (hc : c.Fits P m) (ha : a.Suits c m j) (hfinite : finite → a.IsFinite K) :
    a.strategy.Contained c P m (a.Holds c P m s₀ j finite) fun _ f =>
      c.options.termination.Escapes m c.problem.size f ∨ Escapes P s₀ finite f := by
  intro r hr h
  refine (renew_ends hc ha hr h).bind (fun _ r₁ h₁ => ?_) (fun _ _ he => he.mono fun _ => .inr)
  rcases h₁ with ⟨hr₁, h₁, J, hJ⟩
  refine (direction_ends hc ha hfinite hr₁ h₁ hJ).bind (fun du r₂ h₂ => ?_)
    (fun _ _ he => he.mono fun _ => .inr)
  rcases h₂ with ⟨hdu, hr₂, h₂⟩
  have hevaluate := Problem.evaluate_fits hc.answers hc.shape r₂.work.machinery
  have hharmless := fun v => (c.problem.evaluate_keeps v).harmless (t := r₂.work.machinery)
  have hsearch := LineSearch.search_safe (p := ⟨r₂.u, r₂.fu, du⟩) hc.closed hevaluate hharmless
    hr₂.u hdu r₂.ext.search r₂.work rfl
  simp only [ends_bind, ends_get]
  refine (Run.onWork_going hr₂ (hsearch.mono (fun _ _ hw => hw.1)
    (fun _ _ he f hf => (he.2 f hf).elim))).mono (fun alpha t ht => ?_) (fun _ _ he => he)
  rcases ht with ⟨w, rfl, hmachinery⟩
  obtain ⟨hstored, hsystem⟩ := Prod.mk.inj hmachinery
  have h₃ : a.Holds c P m s₀ j finite w r₂.fu r₂.ext := by
    refine ⟨h₂.jacobians, h₂.way, ?_, ?_, h₂.finite⟩
    · rw [hsystem]
      exact h₂.system
    · rw [hstored, hsystem]
      exact h₂.ready
  refine (advance_ends hc hdu alpha (hr₂.withWork w) h₃).mono (fun _ r₄ h₄ => ?_)
    (fun _ _ he => he.mono fun _ => .inr)
  rcases h₄ with ⟨hr₄, h₄⟩
  refine (Run.check_going hr₄).mono (fun _ t ht => ?_) (fun _ _ he => he.mono fun _ => .inl)
  rcases ht with ⟨ht, hfinal, -, -, -, hwork, hext⟩
  rw [ends_pure, hwork, hext]
  exact ⟨ht, h₄.jacobians, h₄.way, h₄.system, h₄.ready, fun _ => hfinal⟩

/-- What a start leaves for the first step. -/
theorem start_holds (hc : c.Fits P m) {fu : Vec K} {w : Workspace σ R K} {s : State σ R K}
    (hfu : fu.size = m) (hfinite : finite → fu.isFinite = true) (hw : w.jacobian = none)
    (h : a.start c c.problem.guess.entries fu = .ok (w.system, s)) :
    a.Holds c P m w.system s.jacobians finite w fu s ∧
      (a.form = .direct → m = c.problem.size) ∧ s.jacobians.concrete = a.concrete := by
  have hguess : c.problem.guess.entries.Fits P c.problem.size := ⟨rfl, hc.guess⟩
  have hprepared := start_ok h
  refine ⟨⟨rfl, ?_, SystemChoice.system_continues hprepared.system, ?_, hfinite⟩,
    fun hdirect => hfu.symm.trans (hprepared.square hdirect), hprepared.concrete⟩
  · rw [hprepared.way]
    exact hguess.zerosLike hc.closed
  · intro J hJ
    rw [hw] at hJ
    cases hJ

end RootFinding.Newton
