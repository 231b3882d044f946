import RootFinding.Proofs.Containment

/-!
# Faults of pseudo-transient steps

Besides the faults of its linear system a pseudo-transient step ends in a fault only where the
scalar arithmetic of its step size does: a size of zero or without a finite square, or a
controller that divides by zero.

* `StepController.Divides`: the numbers that the controller divides a step size by.
* `PseudoTransient.contained`: there are no other faults.
-/

namespace RootFinding

open Action

variable {σ R K : Type} [Scalar R] [Entry R K] {P : K → Prop} {m n : Nat}

/-! ## The controller -/

/-- The numbers that a step size is divided by. -/
inductive StepController.Divides (k : StepController R) : R → Prop
  | unit : Divides k 1.0
  | growth : Divides k (1.0 / k.qmax)
  | gain (error : R) : Divides k (k.gain error)

namespace StepController

/-- The controller ends in a fault only where it divides by zero. -/
def ByZero (k : StepController R) (f : Fault) : Prop :=
  f = .zeroDivision ∧ ∃ q, k.Divides q ∧ Scalar.same q 0.0

theorem stepsize_ends (error alpha : R) (k : StepController R) :
    (stepsize error alpha).Ends k (fun q _ => k.Divides q) (fun f _ => k.ByZero f) := by
  simp only [stepsize, ends_bind, ends_get]
  split
  · exact .growth
  · rcases hback : Checked.div alpha (k.gain error) with f | back
    · obtain ⟨hzero, hf⟩ := Checked.div_error hback
      exact ⟨hf, _, .gain error, hzero⟩
    · exact .gain error

theorem update_ends (error alpha : R) (k : StepController R) :
    (update error alpha).Ends k (fun _ _ => True) (fun f _ => k.ByZero f) := by
  refine (stepsize_ends error alpha k).bind (fun q k' hq => ?_) (fun _ _ h => h)
  simp only [ends_bind, ends_get]
  split
  · rcases hnext : afterAccept k' alpha q with f | next
    · unfold afterAccept at hnext
      obtain ⟨hzero, hf⟩ := Checked.div_error hnext
      split at hzero
      · exact ⟨hf, _, .unit, hzero⟩
      · exact ⟨hf, _, hq, hzero⟩
    · trivial
  · trivial

end StepController

/-! ## The error estimate -/

theorem secantDifference_fits {i : Iterates K} (hu : i.u.Fits (fun _ => True) n)
    (hprevious : i.previous.Fits (fun _ => True) n)
    (hbefore : i.beforePrevious.Fits (fun _ => True) n) (alpha alphaPrevious : R) :
    ∃ d, secantDifference i alpha alphaPrevious = .ok d ∧ d.Fits (fun _ => True) n := by
  have hall := Entry.closed_true (K := K)
  obtain ⟨near, hnear, hnearFits⟩ := hu.align hprevious (f := (· - ·)) (T := fun _ => True)
    fun _ _ _ _ => trivial
  obtain ⟨far, hfar, hfarFits⟩ := hprevious.align hbefore (f := (· - ·)) (T := fun _ => True)
    fun _ _ _ _ => trivial
  obtain ⟨d, hd, hdFits⟩ := (hnearFits.divideBy hall (alpha * (alpha + alphaPrevious))).align
    (hfarFits.divideBy hall (alphaPrevious * (alpha + alphaPrevious))) (f := (· - ·))
    (T := fun _ => True) fun _ _ _ _ => trivial
  refine ⟨d.map Entry.abs, ?_, hdFits.map fun _ _ => trivial⟩
  simp only [secantDifference, hnear, hfar, bind, Except.bind, hd]
  rfl

theorem errorScale_fits {i : Iterates K} (hu : i.u.Fits (fun _ => True) n)
    (hprevious : i.previous.Fits (fun _ => True) n) (abstol reltol : R) :
    ∃ s, errorScale i abstol reltol = .ok s ∧ s.Fits (fun _ => True) n := by
  have habs : ∀ {v : Vec K}, v.Fits (fun _ => True) n →
      (v.map Entry.abs : Vec R).Fits (fun _ => True) n := fun hv => hv.map fun _ _ => trivial
  obtain ⟨size, hsize, hsizeFits⟩ := (habs hprevious).align (habs hu) (f := Scalar.upper)
    (T := fun _ => True) fun _ _ _ _ => trivial
  refine ⟨_, ?_, hsizeFits.map (f := fun s => abstol + reltol * s) fun _ _ => trivial⟩
  simp only [errorScale, hsize, bind, Except.bind]
  rfl

/-- The estimate fails only where the square of the step size is not finite. -/
theorem estimateError_error {i : Iterates K} (hu : i.u.Fits (fun _ => True) n)
    (hprevious : i.previous.Fits (fun _ => True) n)
    (hbefore : i.beforePrevious.Fits (fun _ => True) n) {alpha alphaPrevious abstol reltol : R}
    {norm : Vec K → R} {f : Fault}
    (h : estimateError i alpha alphaPrevious abstol reltol norm = .error f) :
    Checked.square alpha = .error f := by
  obtain ⟨d, hd, hdFits⟩ := secantDifference_fits hu hprevious hbefore alpha alphaPrevious
  obtain ⟨s, hs, hsFits⟩ := errorScale_fits hu hprevious abstol reltol
  rcases Fault.bind_error h with hsquare | ⟨square, -, h⟩
  · exact hsquare
  · obtain ⟨scaled, hscaled, -⟩ := hdFits.align hsFits
      (f := fun d s => 7.0 / 12.0 * square * d / s) (T := fun _ => True) fun _ _ _ _ => trivial
    simp only [hd, hs, bind, Except.bind, hscaled] at h
    cases h

namespace PseudoTransient

variable {c : Setup σ R K} {s₀ : LinearSystem R K} {j : JacobianSettings R}

/-- The faults of a step from the state `s`, with a linear system that was chosen as `s₀`. -/
inductive Escapes (P : K → Prop) (s₀ : LinearSystem R K) (s : State R K) : Fault → Prop
  | system {f : Fault} (fault : s₀.Escapes True (Entry.IsComplex P) False f) : Escapes P s₀ s f
  | size (zero : Scalar.same s.alpha 0.0) : Escapes P s₀ s .zeroDivision
  | square (finite : Scalar.isFinite s.alpha)
    (infinite : Scalar.isFinite (Scalar.square s.alpha) = false) : Escapes P s₀ s .overflow
  | controller {f : Fault} (fault : s.controller.ByZero f) : Escapes P s₀ s f

/-- What holds between the steps. -/
structure Holds (c : Setup σ R K) (P : K → Prop) (s₀ : LinearSystem R K) (j : JacobianSettings R)
    (w : Workspace σ R K) (s : State R K) : Prop where
  jacobians : s.jacobians = j
  beforePrevious : s.beforePrevious.Fits P c.problem.size
  system : s₀.Continues P c.problem.size True (c.problem.isMatrixFree j = true) w.system

variable {r : Run σ R K (State R K)}

theorem direction_ends (hc : c.Fits P m) (hm : m = c.problem.size) (hr : r.Going c P m)
    (h : Holds c P s₀ j r.work r.ext) :
    (direction c).Ends r
      (fun du t => du.Fits P c.problem.size ∧ t.Going c P m ∧ t.ext = r.ext ∧
        Holds c P s₀ j t.work t.ext)
      (fun e t => t.Aborted c P m (Escapes P s₀ r.ext) e) := by
  have hfu := hr.fu
  have hanswers := hc.answers
  rw [hm] at hfu hanswers
  simp only [direction, ends_bind, ends_get]
  rw [h.jacobians]
  refine (Run.jacobianAt_going hc hr j).mono (fun J t ht => ?_) (fun _ _ he => he)
  rcases ht with ⟨w₁, rfl, -, hsystem, hserves⟩
  have hfits := hserves.fits
  rw [hm] at hfits
  have hcontinues : s₀.Continues P c.problem.size True (c.problem.isMatrixFree j = true)
      w₁.system := by
    rw [hsystem]
    exact h.system
  rcases hshift : Checked.div 1.0 r.ext.alpha with f | shift
  · obtain ⟨hzero, rfl⟩ := Checked.div_error hshift
    refine ⟨(hr.withWork w₁).toFits, fun f hf => ?_⟩
    cases hf
    exact .size hzero
  · obtain ⟨A, hA, hAfits, hAfree⟩ := Matrix.shift_fits hc.closed hfits shift
    rw [ends_ofFault_ok rfl, ends_ofFault_ok hA]
    refine (Run.factorize_going (hr.withWork w₁) hcontinues hAfits (iff_of_true trivial rfl)
      (hAfree.trans hserves.free) fun _ => trivial).mono (fun _ t ht => ?_)
      (fun _ _ he => he.mono fun _ hf => .system hf)
    rcases ht with ⟨w₂, rfl, -, hcontinues₂, M, hready⟩
    refine (Run.solve_going hc (hr.withWork w₂) hcontinues₂ hready hAfits (iff_of_true trivial rfl)
      hfu (by simp) fun _ k => Problem.evaluate_fits hanswers hc.shape k).mono (fun x t ht => ?_)
      (fun _ _ he => he.mono fun _ hf => .system hf)
    rcases ht with ⟨w₃, rfl, hx, -, hcontinues₃, -⟩
    exact ⟨hx, hr.withWork w₃, rfl, h.jacobians, h.beforePrevious, hcontinues₃⟩

theorem adapt_ends (hr : r.Going c P m) (h : Holds c P s₀ j r.work r.ext) :
    (adapt : Stepping σ R K (State R K) Unit).Ends r
      (fun _ t => t.Going c P m ∧ Holds c P s₀ j t.work t.ext)
      (fun e t => t.Aborted c P m (Escapes P s₀ r.ext) e) := by
  have hsizes : ∀ {v : Vec K}, v.Fits P c.problem.size → v.Fits (fun _ => True) c.problem.size :=
    fun hv => hv.mono fun _ _ => trivial
  simp only [adapt, ends_bind, ends_get, Run.ends_update]
  rcases herror : estimateError ⟨r.u, r.previous, r.ext.beforePrevious⟩ r.ext.alpha
    r.ext.alphaPrevious r.ext.controller.abstol r.ext.controller.reltol Vec.rms with f | error
  · obtain ⟨hfinite, hinfinite, rfl⟩ := Checked.square_error
      (estimateError_error (hsizes hr.u) (hsizes hr.previous) (hsizes h.beforePrevious) herror)
    refine ⟨hr.toFits, fun f hf => ?_⟩
    cases hf
    exact .square hfinite hinfinite
  · simp only [control, Run.ends_onExt, ends_within, ends_mapError]
    refine (StepController.update_ends error r.ext.alpha r.ext.controller).mono
      (fun next k _ => ?_) (fun f k hf => ⟨hr.toFits.of_core rfl rfl, fun g hg => ?_⟩)
    · split
      · simp only [ends_bind, Run.ends_notice, Run.ends_update]
        exact ⟨hr.of_core rfl rfl rfl rfl, h.jacobians, hr.previous, h.system⟩
      · exact ⟨hr.of_core rfl rfl rfl rfl, h.jacobians, hr.previous, h.system⟩
    · cases hg
      exact .controller hf

/-- A pseudo-transient step ends in no other faults. -/
theorem contained (a : PseudoTransient R) (hc : c.Fits P m) (hm : m = c.problem.size) :
    (a.strategy : Strategy σ R K (State R K)).Contained c P m (fun w _ s => Holds c P s₀ j w s)
      fun r f => c.options.termination.Escapes m c.problem.size f ∨ Escapes P s₀ r.ext f := by
  intro r hr h
  refine (direction_ends hc hm hr h).bind (fun du r₁ h₁ => ?_) (fun _ _ he => he.mono fun _ => .inr)
  rcases h₁ with ⟨hdu, hr₁, hext₁, h₁⟩
  have hu : (r₁.u - du).Fits P c.problem.size := hr₁.u.sub hc.closed hdu
  have hr₁' : Run.Going c P m { r₁ with previous := r₁.u, du, alpha := r₁.ext.alpha } :=
    ⟨⟨hr₁.u, hr₁.u, hr₁.fu, hr₁.remembers, hr₁.settings⟩, hr₁.error, hr₁.code⟩
  simp only [ends_bind, ends_get, ends_modify]
  refine (Run.evaluate_going hc hr₁' hu).mono (fun fu t ht => ?_) (fun _ _ he => he)
  rcases ht with ⟨w, rfl, hfu, -, hsystem⟩
  rw [Run.ends_moveTo]
  have hgoing : Run.Going c P m
      { r₁ with previous := r₁.u, du, alpha := r₁.ext.alpha, work := w, u := r₁.u - du, fu } :=
    ⟨⟨hu, hr₁.u, hfu, hr₁.remembers, hr₁.settings⟩, hr₁.error, hr₁.code⟩
  refine (Run.check_going hgoing).mono (fun converged r₂ h₂ => ?_)
    (fun _ _ he => he.mono fun _ => .inl)
  rcases h₂ with ⟨hr₂, -, -, -, -, hwork₂, hext₂⟩
  have hholds : Holds c P s₀ j r₂.work r₂.ext := by
    rw [hwork₂, hext₂]
    refine ⟨h₁.jacobians, h₁.beforePrevious, ?_⟩
    rw [hsystem]
    exact h₁.system
  split
  · exact ⟨hr₂, hholds⟩
  · have hext : r₂.ext = r.ext := hext₂.trans hext₁
    rw [← hext]
    exact (adapt_ends hr₂ hholds).mono (fun _ _ ht => ht) (fun _ _ he => he.mono fun _ => .inr)

/-- What a start leaves for the first step. -/
theorem start_holds {a : PseudoTransient R} (hc : c.Fits P m) {fu : Vec K}
    {w : Workspace σ R K} {s : State R K} (hfu : fu.size = m)
    (h : a.start c c.problem.guess.entries fu = .ok (w.system, s)) :
    Holds c P w.system s.jacobians w s ∧ m = c.problem.size := by
  have hguess : c.problem.guess.entries.Fits P c.problem.size := ⟨rfl, hc.guess⟩
  have hprepared := start_ok h
  refine ⟨⟨rfl, ?_, SystemChoice.system_continues hprepared.system⟩,
    hfu.symm.trans hprepared.square⟩
  rw [hprepared.beforePrevious]
  exact hguess

end PseudoTransient

end RootFinding
