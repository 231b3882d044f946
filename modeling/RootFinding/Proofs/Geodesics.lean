import RootFinding.Proofs.Polynomials
import RootFinding.Proofs.Worlds
import RootFinding.Proofs.SeparateEquations

/-!
# The second order correction of Levenberg-Marquardt steps

The correction takes the second derivative of the residual along the velocity from a difference with
the step `h`. On a quadratic residual that difference is exact, so nothing of a run depends on `h`.

* `LevenbergMarquardt.Accelerates`: the correction of the step from a state solves the damped normal
  equations for the second derivative.
* `LevenbergMarquardt.Located`: what holds between the steps, besides `LevenbergMarquardt.Between`.
* `LevenbergMarquardt.StepAt`: a step that has found its velocity, in numbers.
  `LevenbergMarquardt.StepAt.correction`: its correction.
  `LevenbergMarquardt.StepAt.corrections_alike`: the corrections with two `h`.
* `LevenbergMarquardt.step_alike`, `LevenbergMarquardt.loop_alike`: the steps and the runs with two
  `h`. `LevenbergMarquardt.correction_exact`: all of it for whole runs.
-/

open scoped Matrix

namespace RootFinding

open Action Exact ExactEntry

/-- A choice of a method leads to the method `M`. -/
def SystemChoice.Admits {R : Type} (choice : SystemChoice R) (M : SolveMethod) : Prop :=
  choice.asked = some M ∨ choice.asked = none ∧ M.IsDirect

section Solves

variable {σ 𝕜 K : Type} [RCLike 𝕜] [Entry Exact K] [ExactEntry 𝕜 K] {n : Nat}

/-- After a factorisation of a matrix that reads `N` every solve by the method `M` answers the
solution. -/
def LinearSystem.SolvesBy (B : Backend σ Exact K) (F : Vec K → Work σ Exact K (Vec K))
    (M : SolveMethod) (N : FieldMatrix 𝕜 n n) : Prop :=
  ∀ (A : Matrix Exact K) (w : Workspace σ Exact K) (b : Vec K) (g : Fin n → 𝕜), A.Reads N →
    w.system.method = some M → w.system.Factorized B A → b.Reads g →
      (solve B F b).Ends w (fun x _ => ∃ y, x.Reads y ∧ N *ᵥ y = g) (fun _ _ => False)

theorem LinearSystem.solvesBy_of_direct {B : Backend σ Exact K}
    {F : Vec K → Work σ Exact K (Vec K)} {M : SolveMethod} {N : FieldMatrix 𝕜 n n}
    (hB : B.Eliminates 𝕜) (hM : M.IsDirect) : SolvesBy B F M N :=
  fun _ _ _ _ hA hmethod hfactorized hb => hfactorized.solves hB hA hmethod hM hb

end Solves

namespace LevenbergMarquardt

/-- The settings with another part of the step along which the residual is differentiated. -/
def withDifference {R : Type} (a : LevenbergMarquardt R) (h : R) : LevenbergMarquardt R :=
  { a with geodesic := { a.geodesic with difference := h } }

theorem HasReals.withDifference {a : LevenbergMarquardt Exact} {damping increase decrease floor : ℝ}
    (ha : a.HasReals damping increase decrease floor) (h : Exact) :
    (a.withDifference h).HasReals damping increase decrease floor :=
  { ha with }

variable {σ τ 𝕜 K : Type} [RCLike 𝕜] [Entry Exact K] [ExactEntry 𝕜 K] [ExactParts 𝕜 K] {m n : Nat}

/-- In the step from `r` the second order correction solves its equations. -/
def Accelerates (P : PolynomialMap 𝕜 m n) (a : LevenbergMarquardt Exact) (c : Setup σ Exact K)
    (r : Run σ Exact K (State Exact K)) : Prop :=
  ∀ J A s v s', Computes c r J A s v s' → ∃ (x y d : Fin n → 𝕜) (damping : ℝ),
    r.u.Reads x ∧ J.Reads (P.jacobian x) ∧ v.Reads y ∧ s.ext.damping = real damping ∧
      s.ext.scaling.Reads d ∧
        (a.correction c J v).Ends s'
          (fun w _ => ∃ (w' : Vec K) (z : Fin n → 𝕜), w = some w' ∧ w'.Reads z ∧
            (P.jacobian x).damped damping d *ᵥ z = -((P.jacobian x)ᵀ *ᵥ P.curvature x y))
          (fun _ _ => False)


variable {P : PolynomialMap 𝕜 m n} {a : LevenbergMarquardt Exact} {c : Setup σ Exact K}
  {part : σ → τ} {r s s' t : Run σ Exact K (State Exact K)} {J A : Matrix Exact K} {v : Vec K}
  {x y d : Fin n → 𝕜} {damping increase decrease floor h h' : ℝ} {world : σ}

/-! ## The correction -/

/-- What is solved for the correction of the velocity `y` at `x`. -/
noncomputable def bendingSide (P : PolynomialMap 𝕜 m n) (x y : Fin n → 𝕜) : Vec K :=
  Vec.numbers (List.ofFn ((P.jacobian x)ᵀ *ᵥ P.curvature x y))

omit [ExactParts 𝕜 K] in
/-- The right-hand side of the correction does not depend on the step of the difference. -/
theorem side_eq (hP : P.IsQuadratic) (hh : h ≠ 0) (hJ : J.Reads (P.jacobian x))
    {ahead fu slope : Vec K} (hahead : ahead.Reads (P.value (x + (h : 𝕜) • y)))
    (hfu : fu.Reads (P.value x)) (hslope : slope.Reads (P.jacobian x *ᵥ y)) :
    J.applyTranspose (real ((2 : ℕ) / h) • ((ahead - fu).divideBy (real h) - slope)) =
      .ok (bendingSide P x y) := by
  have hchange : (ahead - fu).Reads (P.value (x + (h : 𝕜) • y) - P.value x) := hahead.sub hfu
  have hrest := (hchange.divideBy hh).sub hslope
  have hbend : (real ((2 : ℕ) / h) • ((ahead - fu).divideBy (real h) - slope)).Reads
      (P.curvature x y) := by
    convert hrest.smul ((2 : ℕ) / h) using 1
    funext i
    rw [← hP.second_difference x y (RCLike.ofReal_ne_zero.2 hh) i]
    push_cast
    rfl
  obtain ⟨b, hb, hside⟩ := hJ.applyTranspose hbend.size
  rw [hb, hside _ hbend]
  rfl

omit [ExactParts 𝕜 K] in
/-- Up to its linear system the correction is the same whatever the step of the difference is. -/
theorem correction_eval (hP : P.IsQuadratic) (hp : c.problem.Realizes P.value P.jacobian)
    (hh : h ≠ 0) (hu : r.u.Reads x) (hfu : r.fu.Reads (P.value x)) (hJ : J.Reads (P.jacobian x))
    (hv : v.Reads y) :
    ∃ w, w.model = r.work.model ∧
      (r.work.residualShape.isSome → ∃ world,
        w = { r.work with world, evaluations := r.work.evaluations + 1 }) ∧
      ((a.withDifference (real h)).correction c J v).eval r = (do
        let x ← Run.onWork (LinearSystem.solve c.backend c.problem.evaluate (bendingSide P x y))
        return some (-x) : Stepping σ Exact K (State Exact K) (Option (Vec K))).eval
          { r with work := w } := by
  have hpoint : (r.u + real h • v).Reads (x + (h : 𝕜) • y) := hu.add (hv.smul h)
  obtain ⟨ahead, w, hahead, hreads, hmodel⟩ := (hp.evaluate hpoint r.work).exists_ok
  obtain ⟨-, hcounted⟩ := (c.problem.evaluate_counted _ _).ok hahead
  obtain ⟨slope, hslope, happly⟩ := hJ.apply hv
  have hside := side_eq hP hh hJ hreads hfu hslope
  refine ⟨w, hmodel, hcounted, ?_⟩
  have hdifference : (a.withDifference (real h)).geodesic.difference = real h := rfl
  have hfinite : (!ahead.isFinite) = false := by rw [hreads.isFinite]; rfl
  simp only [correction, eval_bind, eval_get, Run.evaluate, Run.onWork_of_eval hahead, hdifference,
    hfinite, Bool.false_eq_true, if_false, checked_two_div hh, eval_ofFault_ok,
    Run.onWork_of_eval (happly c.problem.evaluate _), hside]

/-! ## The steps of a run -/

/-- Between the steps of a run the iterate is one of numbers with its own residual, and the linear
system has or takes a method of its choice. -/
structure Located (𝕜 : Type) {K : Type} [RCLike 𝕜] [Entry Exact K] [ExactEntry 𝕜 K] (n : Nat)
    (a : LevenbergMarquardt Exact) (c : Setup σ Exact K) (r : Run σ Exact K (State Exact K)) :
    Prop where
  current : Current c r
  reads : ∃ x : Fin n → 𝕜, r.u.Reads x
  method {k : Nat} (N : FieldMatrix 𝕜 k k) (A : Matrix Exact K) : A.Reads N →
    a.choice.Admits (r.work.system.method.getD (.forMatrix A))

omit [ExactParts 𝕜 K] in
theorem Located.of_start (hguess : ∃ x : Fin n → 𝕜, c.problem.guess.entries.Reads x)
    (hstart : Run.start a.strategy c world = .ok r) : Located 𝕜 n a c r := by
  refine ⟨current_of_start hstart, ?_, fun N A hA => ?_⟩
  · rw [Run.start_u hstart]
    exact hguess
  · obtain ⟨⟨krylov, hsystem⟩, -⟩ :=
      SystemChoice.system_ok (start_ok (Run.start_prepared hstart)).system
    rw [hsystem]
    change a.choice.Admits (a.choice.asked.getD _)
    cases hasked : a.choice.asked with
    | none => exact .inr ⟨hasked, hA.forMatrix_isDirect⟩
    | some M => exact .inl hasked

omit [ExactParts 𝕜 K] in
theorem Located.headed (hr : Located 𝕜 n a c r) : Located 𝕜 n a c (r.headed a.strategy) :=
  ⟨hr.current.headed, hr.reads, hr.method⟩

/-- A step keeps what holds between the steps. -/
theorem Located.next (hB : c.backend.Frames) (hsteady : c.problem.Steady part)
    (hzero : c.problem.ZeroFilled) (hbetween : Between 𝕜 a c floor r) (hr : Located 𝕜 n a c r)
    (h : (a.step c).eval r = (.ok (), t)) : Located 𝕜 n a c (Run.recorded c r.u t) := by
  obtain ⟨J, A, s, taken, hstepped⟩ := (step_stepped r).ok h
  obtain ⟨b, htested⟩ := (a.proceeds c r).ok h
  have hcurrent := hr.current.next hB hsteady hstepped
  refine ⟨hcurrent, ?_, fun N A' hA' => ?_⟩
  · obtain ⟨x, hx⟩ := hr.reads
    have hsize : (Run.recorded c r.u t).u.size = n :=
      hcurrent.answered.size_eq.trans (hr.current.answered.size_eq.symm.trans hx.size)
    rw [Run.recorded_u] at hsize ⊢
    exact Vec.reads_of_isFinite htested.isFinite.1 hsize
  · obtain ⟨J', A, s, hmodel, hmethod⟩ := (step_method hB r).ok h
    obtain ⟨_, _, _, -, -, -, -, -, -, hN⟩ := hbetween.damped hzero hmodel
    rw [Run.recorded_work, hmethod]
    exact hr.method _ _ hN

/-- The step from `r` at `x` has found the velocity `y`, and the linear system of the damped normal
equations is left for further solves. -/
structure StepAt (P : PolynomialMap 𝕜 m n) (c : Setup σ Exact K)
    (r : Run σ Exact K (State Exact K)) (J : Matrix Exact K) (s : Run σ Exact K (State Exact K))
    (v : Vec K) (s' : Run σ Exact K (State Exact K)) (x y d : Fin n → 𝕜) (damping : ℝ) :
    Prop where
  start : r.u.Reads x
  iterate : s'.u.Reads x
  residual : s'.fu.Reads (P.value x)
  jacobian : J.Reads (P.jacobian x)
  damped : s.ext.damping = real damping
  scaled : s.ext.scaling.Reads d
  velocity : v.Reads y
  solves {w : Workspace σ Exact K} {b : Vec K} {g : Fin n → 𝕜} : w.model = s'.work.model →
    b.Reads g → (LinearSystem.solve c.backend c.problem.evaluate b).Ends w
      (fun z _ => ∃ z' : Fin n → 𝕜, z.Reads z' ∧ (P.jacobian x).damped damping d *ᵥ z' = g)
      (fun _ _ => False)

/-- The linear systems of the steps are solved exactly. -/
def SolvesExactly (P : PolynomialMap 𝕜 m n) (a : LevenbergMarquardt Exact) (c : Setup σ Exact K)
    (floor : ℝ) : Prop :=
  ∀ M, a.choice.Admits M → ∀ (x d : Fin n → 𝕜) (damping : ℝ), 0 < damping →
    (∀ i, floor ≤ RCLike.re (d i)) →
      LinearSystem.SolvesBy c.backend c.problem.evaluate M ((P.jacobian x).damped damping d)

theorem Located.stepAt (hp : c.problem.Realizes P.value P.jacobian)
    (hsteady : c.problem.Steady part) (hzero : c.problem.ZeroFilled) (hB : c.backend.Frames)
    (hsolves : SolvesExactly P a c floor) (hbetween : Between 𝕜 a c floor r)
    (hr : Located 𝕜 n a c r) (h : Computes c r J A s v s') :
    ∃ x y d damping, StepAt P c r J s v s' x y d damping := by
  obtain ⟨x, hx⟩ := hr.reads
  have hresidual : r.fu.Reads (P.value x) := hp.answered hx hr.current.answered
  obtain ⟨w₀, hJ₀⟩ := hr.current.isJacobian hsteady h.modelled r.work
  have hJ : J.Reads (P.jacobian x) := ((hp.jacobianAt hx hresidual.size _ _).ok hJ₀).1
  obtain rfl : n = c.problem.size := hx.size.symm.trans hbetween.level.size
  obtain rfl : m = r.fu.size := hresidual.size.symm
  obtain ⟨M, d, damping, hpositive, hfloor, hM, -, hd, hdamping, hN⟩ :=
    hbetween.damped hzero h.model
  obtain rfl := hM.inj hJ
  obtain ⟨g, w, z, hprepares, hg, hz, rfl⟩ := h.solved
  obtain ⟨hu, hfu, -, -⟩ := held_of_velocity h.model h.velocity
  have hmodel : s'.work.model = w.model := ((LinearSystem.solve_model hB g).ends w).ok hz
  have hsystem : s.work.system = r.work.system := ((model_system c).ends r).ok h.model
  have hfactorized : w.system.Factorized c.backend
      (A.addDiagonal (s.ext.damping • s.ext.scaling)) :=
    ⟨s.work, w, hprepares.factorized, rfl, rfl, rfl⟩
  have hmethod := ((LinearSystem.factorize_ready _ _ _).ok hprepares.factorized).method
  rw [hsystem] at hmethod
  have hexact : ∀ {w' : Workspace σ Exact K} {b : Vec K} {f : Fin c.problem.size → 𝕜},
      w'.model = w.model → b.Reads f →
        (LinearSystem.solve c.backend c.problem.evaluate b).Ends w'
          (fun z _ => ∃ z', z.Reads z' ∧ (P.jacobian x).damped damping d *ᵥ z' = f)
          (fun _ _ => False) := fun hw hb =>
    hsolves _ (hr.method _ _ hN) x d damping hpositive hfloor _ _ _ _ hN
      ((congrArg (·.2.2.method) hw).trans hmethod) (hfactorized.of_model hw) hb
  obtain ⟨g', hg', hreads⟩ := hJ.applyTranspose (v := r.fu) rfl
  cases hg'.symm.trans hg
  obtain ⟨y, hy, -⟩ := (hexact rfl (hreads _ hresidual)).ok hz
  exact ⟨x, -y, d, damping, hx, by rwa [hu], by rwa [hfu], hJ, hdamping, hd, hy.neg,
    fun hw hb => hexact (hw.trans hmodel) hb⟩

/-- The correction of a step solves its equations. -/
theorem StepAt.correction (hP : P.IsQuadratic) (hp : c.problem.Realizes P.value P.jacobian)
    (hh : h ≠ 0) (hs : StepAt P c r J s v s' x y d damping) :
    ((a.withDifference (real h)).correction c J v).Ends s'
      (fun w _ => ∃ (w' : Vec K) (z : Fin n → 𝕜), w = some w' ∧ w'.Reads z ∧
        (P.jacobian x).damped damping d *ᵥ z = -((P.jacobian x)ᵀ *ᵥ P.curvature x y))
      (fun _ _ => False) := by
  obtain ⟨w, hmodel, -, heval⟩ :=
    correction_eval (a := a) hP hp hh hs.iterate hs.residual hs.jacobian hs.velocity
  unfold Action.Ends
  rw [heval]
  change Action.Ends _ { s' with work := w } _ _
  rw [ends_bind, Run.ends_onWork]
  refine (hs.solves hmodel rfl).mono (fun z _ hz => ?_) (fun _ _ h => h)
  obtain ⟨z', hz', hsolution⟩ := hz
  exact ⟨-z, -z', rfl, hz'.neg, by rw [Matrix.mulVec_neg, hsolution]⟩

omit [ExactParts 𝕜 K] in
/-- The corrections with two steps of the difference end alike. -/
theorem StepAt.corrections_alike (hP : P.IsQuadratic)
    (hp : c.problem.Realizes P.value P.jacobian) (hsteady : c.problem.Steady part)
    (hB : c.backend.Uniform) (hh : h ≠ 0) (hh' : h' ≠ 0)
    (hs : StepAt P c r J s v s' x y d damping) (hst : Run.Elsewhere s' t) :
    Alike Run.Elsewhere ((a.withDifference (real h)).correction c J v)
      ((a.withDifference (real h')).correction c J v) s' t := by
  obtain ⟨hseen, -⟩ := hst.work
  obtain ⟨world, rfl⟩ := hst.exists_world
  obtain ⟨w, -, hw, heval⟩ :=
    correction_eval (a := a) hP hp hh hs.iterate hs.residual hs.jacobian hs.velocity
  obtain ⟨w', -, hw', heval'⟩ := correction_eval (a := a)
    (r := { s' with work := { s'.work with world } }) hP hp hh' hs.iterate hs.residual
    hs.jacobian hs.velocity
  obtain ⟨world₁, rfl⟩ := hw hseen
  obtain ⟨world₂, rfl⟩ := hw' hseen
  have hrest : Respects Run.Elsewhere (do
      let x ← Run.onWork (LinearSystem.solve c.backend c.problem.evaluate (bendingSide P x y))
      return some (-x) : Stepping σ Exact K (State Exact K) (Option (Vec K))) :=
    (Run.beside_onWork (LinearSystem.solve_elsewhere hsteady hB _)).bind fun _ => respects_pure _
  have hends := hrest _ _
    (⟨_, _, ⟨hseen, world₂, rfl⟩, rfl, rfl⟩ : Run.Elsewhere
      { s' with work := { s'.work with
          world := world₁, evaluations := s'.work.evaluations + 1 } }
      { s' with work := { s'.work with
          world := world₂, evaluations := s'.work.evaluations + 1 } })
  unfold Alike
  rw [heval, heval']
  exact hends

/-- Corrected steps end alike if their corrections do. -/
theorem correctedStep_elsewhere {a a' : LevenbergMarquardt Exact}
    (h : Alike Run.Elsewhere (a.correction c J v) (a'.correction c J v) s t)
    (hst : Run.Elsewhere s t) (hactive : a'.geodesic.active = a.geodesic.active)
    (hbound : a'.geodesic.bound = a.geodesic.bound) :
    Alike Run.Elsewhere (a.correctedStep c J v) (a'.correctedStep c J v) s t := by
  unfold correctedStep
  rw [hactive, hbound]
  split
  · exact alike_pure hst _
  · refine h.bind (fun w s t hst => ?_) (fun _ _ h => h)
    cases w with
    | none => exact alike_pure hst _
    | some w =>
      dsimp only
      split <;> exact alike_pure hst _

/-! ## Runs -/

/-- The start does not look at the settings of the correction. -/
theorem start_withGeodesic {R K : Type} [Scalar R] [Entry R K] (a : LevenbergMarquardt R)
    (c : Setup σ R K) (g : Geodesic R) (world : σ) :
    Run.start ({ a with geodesic := g } : LevenbergMarquardt R).strategy c world =
      Run.start a.strategy c world := by
  have hstart : ({ a with geodesic := g } : LevenbergMarquardt R).start c = a.start c := rfl
  unfold Run.start
  simp only [strategy, hstart]

section Runs

variable (hP : P.IsQuadratic) (hreal : a.HasReals damping increase decrease floor)
  (haccepted : a.refusal? = none) (hp : c.problem.Realizes P.value P.jacobian)
  (hsteady : c.problem.Steady part) (hzero : c.problem.ZeroFilled) (hB : c.backend.Uniform)
  (hsolves : SolvesExactly P a c floor)

include hP hp hsteady hzero hB hsolves in
/-- The steps with two steps of the difference end alike. -/
theorem step_alike (hh : h ≠ 0) (hh' : h' ≠ 0)
    (hbetween : Between 𝕜 (a.withDifference (real h)) c floor r)
    (hlocated : Located 𝕜 n (a.withDifference (real h)) c r) (hr : Run.Elsewhere r t) :
    Alike Run.Elsewhere (Run.step (a.withDifference (real h)).strategy c)
      (Run.step (a.withDifference (real h')).strategy c) r t := by
  refine Run.step_alike_beside hsteady.evaluate_elsewhere hr ?_
  change Alike _ ((a.withDifference (real h)).step c) ((a.withDifference (real h')).step c) r t
  rw [step_eq, step_eq]
  refine (model_elsewhere hsteady r t hr).bind_eval (fun X s t hs _ hst => ?_) (fun _ _ h => h)
  refine Alike.bind ?_ (fun taken s t hst => settle_elsewhere a taken s t hst) (fun _ _ h => h)
  refine (velocity_elsewhere hsteady hB X.1 X.2 s t hst).bind_eval (fun v s' t hs' _ hst => ?_)
    (fun _ _ h => h)
  obtain ⟨x, y, d, damping, hstep⟩ :=
    hlocated.stepAt (a := a.withDifference (real h)) hp hsteady hzero hB.frames hsolves hbetween
      ⟨hs, hs'⟩
  refine (correctedStep_elsewhere
    (hstep.corrections_alike (a := a) hP hp hsteady hB hh hh' hst) hst rfl rfl).bind
      (fun du s t hst => ?_) (fun _ _ h => h)
  cases du with
  | none => exact alike_pure hst _
  | some du => exact attempt_elsewhere hsteady a v du s t hst

include hreal haccepted hp hsteady hzero hB in
/-- What holds between the steps holds wherever a run gets without a failure. -/
theorem located_of_reaches (h : Run.Reaches a.strategy c world r) (hr : r.error = none) :
    Between 𝕜 a c floor r ∧ Located 𝕜 n a c r := by
  obtain ⟨r₀, hstart, hleads⟩ := h
  have hbetween : ∀ s, Run.Leads a.strategy c r₀ s → s.error = none → Between 𝕜 a c floor s :=
    fun s hs hnone =>
      (between_of_leads (𝕜 := 𝕜) hreal haccepted hB.frames hzero hstart hs hnone).1
  refine ⟨hbetween r hleads hr, ?_⟩
  have herror := Run.start_error hstart
  have hkept : Run.Leads a.strategy c r₀ r ∧ Located 𝕜 n a c r := by
    refine hleads.going (I := fun s => Run.Leads a.strategy c r₀ s ∧ Located 𝕜 n a c s)
      (a.proceeds c) herror hr ⟨.refl, .of_start hp.guess hstart⟩
      (fun s hs => ⟨hs.1.headline, hs.2.headed⟩) (fun s t hs active hstep => ?_)
    obtain ⟨hleads, hlocated⟩ := hs
    have hnone := hleads.error_eq_none (a.proceeds c) herror (Run.stopped_of_isActive active)
    exact ⟨hleads.step active (Run.step_of_ok hstep),
      hlocated.next hB.frames hsteady hzero (hbetween s hleads hnone) hstep⟩
  exact hkept.2

include hP hreal haccepted hp hsteady hzero hB hsolves in
/-- The runs with two steps of the difference stay beside each other. -/
theorem loop_alike (hh : h ≠ 0) (hh' : h' ≠ 0) (fuel : Nat)
    (hreached : Run.Reaches (a.withDifference (real h)).strategy c world r)
    (hr : Run.Elsewhere r t) :
    Alike Run.Elsewhere (Run.loop (a.withDifference (real h)).strategy c fuel)
      (Run.loop (a.withDifference (real h')).strategy c fuel) r t := by
  induction fuel generalizing r t with
  | zero => exact alike_pure hr _
  | succ fuel ih =>
    have hactive : t.isActive = r.isActive := by
      obtain ⟨world, rfl⟩ := hr.exists_world
      rfl
    simp only [Run.loop, alike_get_bind, hactive]
    split
    next active =>
      obtain ⟨r₀, hstart, before⟩ := id hreached
      have hnone := before.error_eq_none ((a.withDifference (real h)).proceeds c)
        (Run.start_error hstart) (Run.stopped_of_isActive active)
      obtain ⟨hbetween, hlocated⟩ := located_of_reaches (a := a.withDifference (real h))
        (hreal.withDifference _) haccepted hp hsteady hzero hB hreached hnone
      refine (step_alike hP hp hsteady hzero hB hsolves hh hh' hbetween hlocated hr).bind_eval
        (fun _ s s' hs _ hss => ?_) (fun _ _ h => h)
      exact ih ⟨r₀, hstart, before.step active hs⟩ hss
    next => exact alike_pure hr _

include hP hreal haccepted hp hsteady hzero hB hsolves in
/-- **The second order correction on quadratic residuals.**  Let the components of the residual be
polynomials of degree two at most, with their Jacobian from the caller and systems of equations that
are solved exactly. Whatever the step `h ≠ 0` of the difference is, in every step of a run that
computes a velocity `y` the correction is an answer to the damped normal equations for
`-Jᵀ F''(x)[y, y]`.

So the runs with any two such `h` start in the same state, and after every step they agree on all
but the caller's own state: on the iterate, its residual and the step, the damping, the scaling, the
velocity and the loss that are kept, the code and all counters. Their solves have the same outcomes
but for that state. -/
theorem correction_exact (world : σ) :
    (∀ h : ℝ, h ≠ 0 → ∀ r, Run.Reaches (a.withDifference (real h)).strategy c world r →
      r.error = none → Accelerates P (a.withDifference (real h)) c r) ∧
    ∀ h h' : ℝ, h ≠ 0 → h' ≠ 0 →
      Run.start (a.withDifference (real h')).strategy c world =
          Run.start (a.withDifference (real h)).strategy c world ∧
        (∀ r, Run.start (a.withDifference (real h)).strategy c world = .ok r → ∀ fuel,
          Alike Run.Elsewhere (Run.loop (a.withDifference (real h)).strategy c fuel)
            (Run.loop (a.withDifference (real h')).strategy c fuel) r r) ∧
        ((Algorithm.levenbergMarquardt (a.withDifference (real h'))).solve c world).map
            (fun o => (o.solution, o.printed, o.warnings)) =
          ((Algorithm.levenbergMarquardt (a.withDifference (real h))).solve c world).map
            (fun o => (o.solution, o.printed, o.warnings)) := by
  refine ⟨fun h hh r hreached hnone J A s v s' hcomputes => ?_, fun h h' hh hh' => ?_⟩
  · obtain ⟨hbetween, hlocated⟩ := located_of_reaches (a := a.withDifference (real h))
      (hreal.withDifference _) haccepted hp hsteady hzero hB hreached hnone
    obtain ⟨x, y, d, damping, hstep⟩ :=
      hlocated.stepAt (a := a.withDifference (real h)) hp hsteady hzero hB.frames hsolves hbetween
        hcomputes
    exact ⟨x, y, d, damping, hstep.start, hstep.jacobian, hstep.velocity, hstep.damped,
      hstep.scaled, hstep.correction hP hp hh⟩
  · have hstart : Run.start (a.withDifference (real h')).strategy c world =
        Run.start (a.withDifference (real h)).strategy c world :=
      (a.start_withGeodesic ..).trans (a.start_withGeodesic ..).symm
    have hloop {r t} (fuel : Nat)
        (hreached : Run.Reaches (a.withDifference (real h)).strategy c world r)
        (hr : Run.Elsewhere r t) :=
      loop_alike hP hreal haccepted hp hsteady hzero hB hsolves hh hh' fuel hreached hr
    refine ⟨hstart, fun r hr fuel => hloop fuel ⟨r, hr, .refl⟩ (Run.elsewhere_of_start hr), ?_⟩
    refine Algorithm.outcome_elsewhere hstart fun r hr => ?_
    have hsame := Run.elsewhere_of_start hr
    exact Run.finish_elsewhere rfl hsame fun fuel =>
      hloop fuel ⟨r, hr, .headline .refl⟩ (Run.beside_print _ _ _ _ hsame).2

end Runs

/-! ## A square root -/

section SquareRoot

open MvPolynomial in
/-- The equation for the square root of two. -/
noncomputable def squareMap : PolynomialMap ℝ 1 1 := fun _ => X 0 * X 0 - C ((2 : ℕ) : ℝ)

theorem squareMap_isQuadratic : squareMap.IsQuadratic := by
  intro i
  refine (MvPolynomial.totalDegree_sub _ _).trans (max_le ?_ ?_)
  · refine (MvPolynomial.totalDegree_mul _ _).trans ?_
    rw [MvPolynomial.totalDegree_X]
  · rw [MvPolynomial.totalDegree_C]
    exact Nat.zero_le _

noncomputable def squareAt : Fin 1 → ℝ → ℝ := fun _ x => x * x - (2 : ℕ)

noncomputable def squareSlope : Fin 1 → ℝ → ℝ := fun _ x => x + x

/-- The search for that root from one. -/
noncomputable def squareSetup : Setup Unit Exact Exact :=
  separateSetup squareAt squareSlope ![1] Termination.standard

theorem squareMap_value (x : Fin 1 → ℝ) : squareMap.value x = fun i => squareAt i (x i) := by
  funext i
  obtain rfl := Subsingleton.elim i 0
  simp [PolynomialMap.value, squareMap, squareAt]

theorem squareMap_jacobian (x : Fin 1 → ℝ) : squareMap.jacobian x = slopes squareSlope x := by
  ext i j
  obtain rfl := Subsingleton.elim i 0
  obtain rfl := Subsingleton.elim j 0
  simp [PolynomialMap.jacobian, squareMap, squareSlope, FieldMatrix.addDiagonal]

theorem square_realizes : squareSetup.problem.Realizes squareMap.value squareMap.jacobian where
  guess := ⟨![1], separate_guess⟩
  residual v x w hv := by
    obtain ⟨fu, t, hfu, hreads⟩ := (separate_evaluate hv w).exists_ok
    exact ⟨fu, congrArg Prod.fst hfu, squareMap_value x ▸ hreads⟩
  jacobian := ⟨_, rfl, fun t x w ht => ⟨_, rfl, squareMap_jacobian x ▸
    (Newton.arrayOf_reads (0 : FieldMatrix ℝ 1 1)).addDiagonal (onEntries_reads ht)⟩⟩

/-- The standard settings with the correction. -/
noncomputable def accelerated : LevenbergMarquardt Exact :=
  { standard with geodesic := { active := true, difference := 0.1, bound := 0.75 } }

theorem accelerated_solves : SolvesExactly squareMap accelerated squareSetup 1e-8 := by
  rintro M (hasked | ⟨-, hdirect⟩) x d damping - -
  · cases hasked
  · exact LinearSystem.solvesBy_of_direct (Backend.standard_eliminates ℝ) hdirect

/-- The search starts, and its first step computes a velocity. -/
theorem square_starts :
    ∃ r, Run.start accelerated.strategy squareSetup () = .ok r ∧ r.error = none ∧
      ∃ J A s v s', Computes squareSetup r J A s v s' := by
  obtain ⟨r, hstart, hstands, -, hcomes, -⟩ := separate_starts squareAt squareSlope ![1]
    Termination.standard .byMatrix (m := .lu) rfl rfl
  have hpivot : pivot squareSlope ![1] (fun _ => 1e-8) 1 0 = 8 := by
    norm_num [pivot, raised, squareSlope]
  have hanswered : AnsweredBy squareAt squareSlope ![1] ![1] (fun _ => 1e-8) 1 .lu ![-1 / 4] :=
    answered_single (by rw [hpivot]; norm_num)
      (by rw [hpivot]; norm_num [squareSlope, squareAt])
  obtain ⟨J, A, s, v, fu, w, htries, -⟩ := hstands.tries hanswered
  obtain ⟨s', hvelocity, -⟩ := htries.trial
  exact ⟨r, ((choosing .byMatrix).start_withGeodesic ..).trans hstart, hcomes.error,
    J, A, s, v, s', htries.model, hvelocity⟩

/-- The search for the square root, with two steps of the difference. -/
theorem square_accelerates :
    ∃ r, Run.start (accelerated.withDifference (real 1)).strategy squareSetup () = .ok r ∧
      (∃ J A s v s', Computes squareSetup r J A s v s') ∧
      Accelerates squareMap (accelerated.withDifference (real 1)) squareSetup r ∧
      (∀ fuel, Alike Run.Elsewhere
        (Run.loop (accelerated.withDifference (real 1)).strategy squareSetup fuel)
        (Run.loop (accelerated.withDifference (real (-1))).strategy squareSetup fuel) r r) ∧
      ((Algorithm.levenbergMarquardt (accelerated.withDifference (real (-1)))).solve squareSetup
          ()).map (fun o => (o.solution, o.printed, o.warnings)) =
        ((Algorithm.levenbergMarquardt (accelerated.withDifference (real 1))).solve squareSetup
          ()).map (fun o => (o.solution, o.printed, o.warnings)) := by
  obtain ⟨r, hstart, herror, hcomputes⟩ := square_starts
  have hstart' : Run.start (accelerated.withDifference (real 1)).strategy squareSetup () = .ok r :=
    (accelerated.start_withGeodesic ..).trans hstart
  have hreal : accelerated.HasReals 1.0 2.0 3.0 1e-8 := ⟨rfl, rfl, rfl, rfl⟩
  obtain ⟨haccelerates, hruns⟩ := correction_exact squareMap_isQuadratic hreal standard_accepted
    square_realizes separate_steady separate_zeroFilled Backend.standard_uniform accelerated_solves
    ()
  obtain ⟨-, hloop, hsolve⟩ := hruns 1 (-1) one_ne_zero (by norm_num)
  exact ⟨r, hstart', hcomputes, haccelerates 1 one_ne_zero r ⟨r, hstart', .refl⟩ herror,
    hloop r hstart', hsolve⟩

end SquareRoot

end LevenbergMarquardt

end RootFinding
