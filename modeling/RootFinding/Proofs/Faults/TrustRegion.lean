import RootFinding.Proofs.Containment
import RootFinding.Proofs.TrustRadius

/-!
# Faults of trust region steps

Besides the faults of its linear system a trust region step ends in a fault only where the radius
is finite and its square is not.

The invariant is `TrustRegion.Holds`: a model that is kept has the sizes of the problem, and its
Jacobian is the stored one.
-/

namespace RootFinding

open Action

variable {σ R K : Type} [Scalar R] [Entry R K] {P : K → Prop} {m n : Nat}

/-! ## Dogleg steps -/

/-- The sizes of a model of `m` equations in `n` unknowns. -/
structure LinearModel.Fits (P : K → Prop) (m n : Nat) (q : LinearModel K) : Prop where
  newton : q.newton.Fits P n
  gradient : q.gradient.Fits P n
  image : q.image.Fits P m

namespace LinearModel

theorem reach_fits (hP : Entry.Closed P) {base d : Vec K} (hbase : base.Fits P n)
    (hd : d.Fits P n) (length radius : R) :
    (∃ x, reach base d length radius = .ok x ∧ x.Fits P n) ∨
      ∃ f, reach base d length radius = .error f ∧ Checked.square radius = .error f := by
  have hsize : ¬base.size ≠ d.size := not_not_intro (hbase.size.trans hd.size.symm)
  unfold reach
  rw [if_neg hsize]
  rcases hsquare : Checked.square radius with f | square
  · exact .inr ⟨f, rfl, rfl⟩
  · exact .inl ⟨_, rfl, hbase.add hP (hd.smul hP _)⟩

/-- A dogleg step has an entry for each unknown, unless the square of the radius is no finite
number. -/
theorem dogleg_fits (hP : Entry.Closed P) {q : LinearModel K} (hq : q.Fits P m n) (radius : R) :
    (∃ x, q.dogleg radius = .ok x ∧ x.Fits P n) ∨
      ∃ f, q.dogleg radius = .error f ∧ Checked.square radius = .error f := by
  unfold dogleg
  dsimp only
  split
  · exact .inl ⟨_, rfl, hq.newton⟩
  · split
    · exact .inl ⟨_, rfl, hq.newton.smul hP _⟩
    · split
      · exact .inl ⟨_, rfl, hq.gradient.smul hP _⟩
      · have hdescent : ((-(Scalar.square q.gradient.norm / Entry.re (q.image.dot q.image))) •
            q.gradient : Vec K).Fits P n := hq.gradient.smul hP _
        obtain ⟨d, hd, hdFits⟩ := hq.newton.align hdescent (f := (· - ·)) (T := P)
          fun _ _ => hP.sub
        rw [hd]
        exact reach_fits hP hdescent hdFits _ radius

end LinearModel

namespace TrustRegion

variable {c : Setup σ R K} {s₀ : LinearSystem R K} {j : JacobianSettings R} {finite : Prop}

/-- The faults of a step with the given radius, with a linear system that was chosen as `s₀` for `m`
equations in `n` unknowns. All systems may be known to be `finite`. -/
inductive Escapes (P : K → Prop) (s₀ : LinearSystem R K) (m n : Nat) (finite : Prop)
    (radius : R) : Fault → Prop
  | system {f : Fault} (fault : s₀.Escapes (m = n) (Entry.IsComplex P) finite f) :
    Escapes P s₀ m n finite radius f
  | square (within : Scalar.isFinite radius)
    (beyond : Scalar.isFinite (Scalar.square radius) = false) :
    Escapes P s₀ m n finite radius .overflow

/-- What holds between the steps. -/
structure Holds (c : Setup σ R K) (P : K → Prop) (m : Nat) (s₀ : LinearSystem R K)
    (j : JacobianSettings R) (finite : Prop) (w : Workspace σ R K) (fu : Vec K) (s : State R K) :
    Prop where
  jacobians : s.jacobians = j
  system : s₀.Continues P c.problem.size (m = c.problem.size) False w.system
  model : s.renew = false → ∃ J q, w.jacobian = some J ∧ s.model = some q ∧
    c.problem.Serves P m j J ∧ q.Fits P m c.problem.size
  finite : finite → fu.isFinite = true

variable {r : Run σ R K (State R K)}

theorem remodel_fits (hc : c.Fits P m) (hj : c.problem.isMatrixFree j = false)
    (hzero : finite → ∀ real, Entry.isFinite (Entry.zeroAs real : K) = true)
    (hr : r.Going c P m) (h : Holds c P m s₀ j finite r.work r.fu r.ext) :
    (remodel c).Ends r
      (fun _ t => t.Going c P m ∧ Holds c P m s₀ j finite t.work t.fu t.ext ∧
        t.ext.renew = false ∧ t.ext.radius = r.ext.radius)
      (fun e t => t.Aborted c P m
        (Escapes P s₀ m c.problem.size finite r.ext.radius.radius) e) := by
  simp only [remodel, ends_bind, ends_get, Run.ends_update]
  rw [h.jacobians]
  refine (Run.jacobianAt_going hc hr j).mono (fun J t ht => ?_) (fun _ _ he => he)
  rcases ht with ⟨w₁, rfl, hstored₁, hsystem₁, hserves⟩
  have hfree : ¬J.IsFree := hserves.not_isFree hj
  have hcontinues₁ : s₀.Continues P c.problem.size (m = c.problem.size) False w₁.system := by
    rw [hsystem₁]
    exact h.system
  refine (Run.factorize_going (hr.withWork w₁) hcontinues₁ hserves.fits .rfl
    (iff_of_false hfree id) False.elim).mono (fun _ t ht => ?_)
    (fun _ _ he => he.mono fun _ hf => .system hf)
  rcases ht with ⟨w₂, rfl, hstored₂, hcontinues₂, M, hready⟩
  have hall : finite → (∀ D, J.toDense? = some D → Dense.isFinite D = true) ∧
      r.fu.isFinite = true := fun hf =>
    ⟨fun D hD => Matrix.isFinite_toDense (hzero hf) hserves.fits hserves.finite hD, h.finite hf⟩
  refine (Run.solve_going hc (hr.withWork w₂) hcontinues₂ hready hserves.fits .rfl hr.fu hall
    fun hisFree => (hfree hisFree).elim).mono (fun x t ht => ?_)
    (fun _ _ he => he.mono fun _ hf => .system hf)
  rcases ht with ⟨w₃, rfl, hx, hstored₃, hcontinues₃, -⟩
  obtain ⟨gradient, hgradient, hgradientFits⟩ :=
    Matrix.applyTranspose_fits hc.closed hserves.fits hfree hr.fu
  rw [ends_ofFault_ok hgradient]
  refine (Run.apply_going hc (hr.withWork w₃) hserves.fits hfree hgradientFits).mono
    (fun image t ht => ?_) (fun _ _ he => he)
  rcases ht with ⟨w₄, rfl, himage, hstored₄, hsystem₄⟩
  refine ⟨hr.of_core rfl rfl rfl rfl, ⟨h.jacobians, ?_, fun _ => ?_, h.finite⟩, trivial, rfl⟩
  · rw [hsystem₄]
    exact hcontinues₃
  · refine ⟨J, _, ?_, rfl, hserves, hx.neg hc.closed, hgradientFits, himage⟩
    rw [hstored₄, hstored₃, hstored₂, hstored₁]

/-- A trial step has the sizes of the problem. -/
structure Trial.Fits (c : Setup σ R K) (P : K → Prop) (m : Nat) (x : Trial R K) : Prop where
  u : x.u.Fits P c.problem.size
  fu : x.fu.Fits P m

theorem trial_fits (hc : c.Fits P m) (hj : c.problem.isMatrixFree j = false)
    (hr : r.Going c P m) (h : Holds c P m s₀ j finite r.work r.fu r.ext)
    (hrenew : r.ext.renew = false) :
    (trial c).Ends r
      (fun x t => x.Fits c P m ∧ t.Going c P m ∧ Holds c P m s₀ j finite t.work t.fu t.ext)
      (fun e t => t.Aborted c P m
        (Escapes P s₀ m c.problem.size finite r.ext.radius.radius) e) := by
  obtain ⟨J, q, hstored, hmodel, hserves, hq⟩ := h.model hrenew
  have hfree : ¬J.IsFree := hserves.not_isFree hj
  have hkept : kept r = .ok (q, J) := by simp only [kept, hmodel, hstored]
  simp only [trial, ends_bind, ends_get, ends_ofFault_ok hkept]
  rcases LinearModel.dogleg_fits hc.closed hq r.ext.radius.radius with
    ⟨du, hdu, hfits⟩ | ⟨f, hf, hsquare⟩
  · have hu : (r.u + du).Fits P c.problem.size := hr.u.add hc.closed hfits
    rw [ends_ofFault_ok hdu]
    refine (Run.evaluate_going hc hr hu).mono (fun fu t ht => ?_) (fun _ _ he => he)
    rcases ht with ⟨w₁, rfl, hfu, hstored₁, hsystem₁⟩
    refine (Run.apply_going hc (hr.withWork w₁) hserves.fits hfree hfits).mono
      (fun change t ht => ?_) (fun _ _ he => he)
    rcases ht with ⟨w₂, rfl, -, hstored₂, hsystem₂⟩
    refine ⟨⟨hu, hfu⟩, hr.withWork w₂, h.jacobians, ?_, fun hrenew' => ?_, h.finite⟩
    · rw [hsystem₂, hsystem₁]
      exact h.system
    · rw [hstored₂, hstored₁]
      exact h.model hrenew'
  · obtain ⟨hfinite, hinfinite, rfl⟩ := Checked.square_error hsquare
    rw [ends_ofFault_error hf]
    refine ⟨hr.toFits, fun g hg => ?_⟩
    cases hg
    exact .square hfinite hinfinite

theorem propose_fits (hc : c.Fits P m) (hj : c.problem.isMatrixFree j = false)
    (hzero : finite → ∀ real, Entry.isFinite (Entry.zeroAs real : K) = true)
    (hr : r.Going c P m) (h : Holds c P m s₀ j finite r.work r.fu r.ext) :
    (propose c).Ends r
      (fun x t => x.Fits c P m ∧ t.Going c P m ∧ Holds c P m s₀ j finite t.work t.fu t.ext)
      (fun e t => t.Aborted c P m
        (Escapes P s₀ m c.problem.size finite r.ext.radius.radius) e) := by
  simp only [propose, ends_bind, ends_get]
  split
  next =>
    refine (remodel_fits hc hj hzero hr h).bind (fun _ t ht => ?_) (fun _ _ he => he)
    rcases ht with ⟨ht, hholds, hrenew, hradius⟩
    rw [← hradius]
    exact trial_fits hc hj ht hholds hrenew
  next hkept => exact trial_fits hc hj hr h (by simpa using hkept)

/-- The controller of the radius has no faults. Whether the residual is still finite is up to the
check. -/
theorem conclude_fits {x : Trial R K} (hx : x.Fits c P m) (hr : r.Going c P m)
    (h : Holds c P m s₀ j finite r.work r.fu r.ext) :
    (conclude x).Ends r
      (fun _ t => t.Going c P m ∧ Holds c P m s₀ j False t.work t.fu t.ext)
      (fun e t => t.Aborted c P m NoFault e) := by
  simp only [conclude, judge, ends_bind, ends_get, Run.ends_onExt, ends_within]
  refine (TrustRadius.update_ends r.ext.radius x.ratio x.du.norm).mono (fun accepted ρ _ => ?_)
    (fun e ρ he => ⟨hr.toFits.of_core rfl rfl, fun f hf => ?_⟩)
  · simp only [ends_modify]
    split
    · simp only [ends_bind, ends_modify, Run.ends_moveTo, Run.ends_update]
      exact ⟨⟨⟨hx.u, hr.u, hx.fu, hr.remembers, hr.settings⟩, hr.error, hr.code⟩, h.jacobians,
        h.system, by simp, by simp⟩
    · simp only [ends_bind, ends_get, Run.ends_notice]
      exact ⟨hr.of_core rfl rfl rfl rfl, h.jacobians, h.system, h.model, by simp⟩
  · rcases he with ⟨-, g, rfl, -⟩
    cases hf

/-- A trust region step ends in no other faults. -/
theorem contained (a : TrustRegion R) (hc : c.Fits P m) (hj : c.problem.isMatrixFree j = false)
    (hzero : finite → ∀ real, Entry.isFinite (Entry.zeroAs real : K) = true) :
    (a.strategy : Strategy σ R K (State R K)).Contained c P m (Holds c P m s₀ j finite)
      fun r f => c.options.termination.Escapes m c.problem.size f ∨
        Escapes P s₀ m c.problem.size finite r.ext.radius.radius f := by
  intro r hr h
  refine (propose_fits hc hj hzero hr h).bind (fun x r₁ h₁ => ?_)
    (fun _ _ he => he.mono fun _ => .inr)
  rcases h₁ with ⟨hx, hr₁, h₁⟩
  refine (conclude_fits hx hr₁ h₁).bind (fun _ r₂ h₂ => ?_)
    (fun _ _ he => he.mono fun _ => False.elim)
  rcases h₂ with ⟨hr₂, h₂⟩
  refine (Run.check_going hr₂).bind (fun _ t ht => ?_) (fun _ _ he => he.mono fun _ => .inl)
  rcases ht with ⟨ht, hfinal, -, -, -, hwork, hext⟩
  rw [ends_pure, hwork, hext]
  exact ⟨ht, h₂.jacobians, h₂.system, h₂.model, fun _ => hfinal⟩

/-- What a start leaves for the first step. -/
theorem start_holds {a : TrustRegion R} {fu : Vec K} {w : Workspace σ R K} {s : State R K}
    (hfinite : finite → fu.isFinite = true)
    (h : a.start c c.problem.guess.entries fu = .ok (w.system, s)) :
    Holds c P m w.system s.jacobians finite w fu s ∧
      c.problem.isMatrixFree s.jacobians = false := by
  have hprepared := start_ok h
  have hformed : c.problem.isMatrixFree s.jacobians = false := by
    simp [Problem.isMatrixFree, hprepared.concrete]
  have hcontinues : w.system.Continues P c.problem.size (m = c.problem.size) _ w.system :=
    SystemChoice.system_continues hprepared.system
  refine ⟨⟨rfl, ?_, by simp [hprepared.renew], hfinite⟩, hformed⟩
  exact ⟨hcontinues.krylov, hcontinues.unchosen, hcontinues.picks, by simp, hcontinues.last⟩

end TrustRegion

end RootFinding
