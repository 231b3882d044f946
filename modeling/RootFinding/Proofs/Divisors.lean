import RootFinding.Proofs.SizeControl

/-!
# Divisors of pseudo-time steps

By what a pseudo-time step divides, and when one of the numbers is zero.

* `Exact.IsDivisor`: a real number that is not zero.
* `PseudoTransient.Divides`: the step sizes and the settings of the controller are divisors between
  the steps.
* `PseudoTransient.Estimates`: once a step has moved, the tolerances of its error are numbers, zero
  exactly where no absolute tolerance is set and both iterates are zero; where none is zero, the
  error and the next size are numbers.
* `PseudoTransient.run_divides`: so it is in every run.
* `PseudoTransient.pair_undefined`: a run in which a tolerance is zero.
-/

namespace RootFinding

open Action Exact ExactEntry

/-- A number by which others can be divided. -/
def Exact.IsDivisor (a : Exact) : Prop := ∃ x : ℝ, x ≠ 0 ∧ a = real x

namespace StepController

variable {c : StepController Exact} {k : StepController ℝ}

/-- The tolerances of the error that are not refused. -/
theorem tolerances_of_refusal (h : k.exact.refusal? = none) :
    0 ≤ k.abstol ∧ 0 ≤ k.reltol ∧ 0 < k.abstol + k.reltol := by
  have htolerances := (of_refusal h).2.2
  simp only [exact, real_add, real_lt, real_le, not_or, not_lt, not_le] at htolerances
  exact htolerances

/-- A tolerance of the error is zero exactly if no absolute tolerance is set and both iterates are
zero there. -/
theorem tolerance_eq_zero {𝕜 : Type} [RCLike 𝕜] (h : k.exact.refusal? = none) (y x : 𝕜) :
    k.abstol + k.reltol * max ‖y‖ ‖x‖ = 0 ↔ k.abstol = 0 ∧ y = 0 ∧ x = 0 := by
  obtain ⟨habstol, hreltol, hsum⟩ := tolerances_of_refusal h
  have hsize : 0 ≤ max ‖y‖ ‖x‖ := le_max_of_le_left (norm_nonneg y)
  rw [add_eq_zero_iff_of_nonneg habstol (mul_nonneg hreltol hsize)]
  refine and_congr_right fun hzero => ?_
  have hrelative : k.reltol ≠ 0 := by
    rw [hzero, zero_add] at hsum
    exact hsum.ne'
  rw [mul_eq_zero, or_iff_right hrelative]
  constructor
  · intro hmax
    exact ⟨norm_le_zero_iff.1 ((le_max_left _ _).trans hmax.le),
      norm_le_zero_iff.1 ((le_max_right _ _).trans hmax.le)⟩
  · rintro ⟨rfl, rfl⟩
    rw [norm_zero, max_self]

end StepController

namespace PseudoTransient

/-! ## Divisors -/

section Divisors

variable {σ 𝕜 K : Type} [RCLike 𝕜] [Entry Exact K] [ExactEntry 𝕜 K] {k : StepController ℝ}
  {r m : Run σ Exact K (State Exact K)} {n : Nat} {z y x : Fin n → 𝕜} {alphaPrevious alpha : ℝ}

/-- Of the step from `r`: the size on the diagonal, the two products of sizes that divide the slopes
of the error, and what the controller divides by. -/
structure Divides (r : Run σ Exact K (State Exact K)) : Prop where
  shift : IsDivisor r.ext.alpha
  near : IsDivisor (r.ext.alpha * (r.ext.alpha + r.ext.alphaPrevious))
  far : IsDivisor (r.ext.alphaPrevious * (r.ext.alpha + r.ext.alphaPrevious))
  gamma : IsDivisor r.ext.controller.gamma
  qmax : IsDivisor r.ext.controller.qmax
  qmin : IsDivisor r.ext.controller.qmin
  gain : ∀ error : ℝ, error ≠ 0 → IsDivisor (r.ext.controller.gain (real error))

/-- The error of a run that has moved from `y` to `x`: its tolerances are numbers, of which one is
zero exactly if no absolute tolerance is set and both iterates are zero there. If none is, neither
the estimate nor the controller fails, and the error and the next size are numbers. -/
def Estimates (k : StepController ℝ) (m : Run σ Exact K (State Exact K)) (y x : Fin n → 𝕜) :
    Prop :=
  ∃ (scale : Vec Exact) (tolerance : Fin n → ℝ),
    errorScale ⟨m.u, m.previous, m.ext.beforePrevious⟩ m.ext.controller.abstol
      m.ext.controller.reltol = .ok scale ∧ scale.Reads tolerance ∧
    (∀ i, tolerance i = 0 ↔ k.abstol = 0 ∧ y i = 0 ∧ x i = 0) ∧
    ((∀ i, tolerance i ≠ 0) →
      adapt.Ends m (fun _ t => ∃ error next, 0 ≤ error ∧ 0 < next ∧
        t.ext.error = real error ∧ t.ext.alpha = real next) (fun _ _ => False))

omit [RCLike 𝕜] [Entry Exact K] [ExactEntry 𝕜 K] in
theorem Boundary.divides (hk : k.Accepted) (hb : Boundary k r alphaPrevious alpha) :
    Divides r := by
  obtain ⟨hprevious, hpresent⟩ := hb.positive
  obtain ⟨qold, hcontroller⟩ := hb.controller
  have hqmax : k.qmax ≠ 0 := (zero_lt_one.trans_le hk.qmax).ne'
  constructor
  case shift => exact ⟨alpha, hpresent.ne', hb.sizes.2⟩
  case near =>
    rw [hb.sizes.1, hb.sizes.2]
    exact ⟨alpha * (alpha + alphaPrevious), by positivity, rfl⟩
  case far =>
    rw [hb.sizes.1, hb.sizes.2]
    exact ⟨alphaPrevious * (alpha + alphaPrevious), by positivity, rfl⟩
  case gamma => exact ⟨k.gamma, hk.gamma.ne', congrArg (·.gamma) hcontroller⟩
  case qmax => exact ⟨k.qmax, hqmax, congrArg (·.qmax) hcontroller⟩
  case qmin => exact ⟨k.qmin, hk.qmin.ne', congrArg (·.qmin) hcontroller⟩
  case gain =>
    intro error herror
    have hgains : r.ext.controller.HasGains k := by
      rw [hcontroller]
      exact ⟨rfl, rfl, rfl⟩
    have hnonzero : real error ≠ real 0 := fun h => herror (Exact.real.inj h)
    exact ⟨_, (hk.gainAt_pos (real error)).ne',
      StepController.gain_eq hgains hk hnonzero (by simp)⟩

omit [Entry Exact K] [ExactEntry 𝕜 K] in
theorem errorOf_nonneg : 0 ≤ k.errorOf x y z alpha alphaPrevious := Real.sqrt_nonneg _

theorem Boundary.estimates (h : k.exact.refusal? = none) (hb : Boundary k r alphaPrevious alpha)
    (hm : Moved r m x) (hz : r.ext.beforePrevious.Reads z) (hy : r.u.Reads y) :
    Estimates k m y x := by
  have hk := StepController.accepted_of_refusal h
  have hb' : Boundary k m alphaPrevious alpha := hb.of_ext hm.ext
  have hbefore : m.ext.beforePrevious.Reads z := hm.ext ▸ hz
  have hprevious : m.previous.Reads y := hm.previous ▸ hy
  obtain ⟨qold, hcontroller⟩ := hb'.controller
  obtain ⟨scale, hscale, hreads⟩ :=
    errorScale_exact (w := m.ext.beforePrevious) hm.u hprevious k.abstol k.reltol
  refine ⟨scale, _, ?_, hreads, fun i => StepController.tolerance_eq_zero h (y i) (x i),
    fun hnonzero => ?_⟩
  · rw [hcontroller]
    exact hscale
  · have hanswers := adapt_answers hk hb' hbefore hprevious hm.u hnonzero
    refine (hanswers.and (adapt_adapted m)).mono (fun _ t ht => ?_) (fun _ _ h => h.1)
    obtain ⟨hsizes, herror⟩ := hb'.adapted hk ht.2.1 hbefore hprevious hm.u hnonzero
    exact ⟨_, _, errorOf_nonneg, hsizes.positive.2, herror, hsizes.sizes.2⟩

end Divisors

/-! ## Runs -/

section Runs

variable {σ 𝕜 K : Type} [RCLike 𝕜] [Entry Exact K] [ExactEntry 𝕜 K] {k : StepController ℝ}
  {r₀ : Run σ Exact K (State Exact K)} {s : Nat → Run σ Exact K (State Exact K)} {n : Nat}
  {initial : ℝ}

variable (𝕜) in
/-- **The divisors of a run.**  Consider a run whose steps have neither failed nor converged, and in
which, if no absolute tolerance is set, no coordinate has been zero in two iterates in a row. Between
its steps both step sizes are positive numbers, and no divisor but the tolerances of the error can be
zero. A tolerance of the step that follows is zero exactly if no absolute tolerance is set and a
coordinate is zero before and after it. If none is, the step does not fail once it has moved, and its
error and the next size are numbers. -/
theorem run_divides (a : PseudoTransient Exact) (c : Setup σ Exact K) (world : σ)
    (hinitial : a.initial = real initial) (hcontroller : a.controller = k.exact)
    (ha : a.refusal? = none) (hk : a.controller.refusal? = none)
    (hstart : Run.start a.strategy c world = .ok r₀) (hs : Run.Course a.strategy c r₀ s n)
    (hzeros : k.abstol = 0 → ∀ i < n, ∀ y x : Fin c.problem.size → 𝕜,
      (s i).u.Reads y → (s (i + 1)).u.Reads x → ∀ j, y j ≠ 0 ∨ x j ≠ 0) :
    ∃ alpha : Nat → ℝ, alpha 0 = initial ∧ alpha 1 = initial ∧ (∀ i ≤ n + 1, 0 < alpha i) ∧
      (∀ i < n, ∃ error, 0 ≤ error ∧ (s (i + 1)).ext.error = real error) ∧
      ∀ i ≤ n, (s i).ext.alphaPrevious = real (alpha i) ∧
        (s i).ext.alpha = real (alpha (i + 1)) ∧ Divides (s i) ∧
        ∀ m, ∀ y x : Fin c.problem.size → 𝕜, Moved (s i) m x → (s i).u.Reads y →
          Estimates k m y x := by
  have haccepted : k.exact.refusal? = none := hcontroller ▸ hk
  have hk' : k.Accepted := StepController.accepted_of_refusal haccepted
  have hscale : Scaled 𝕜 c k s n := by
    intro i hi y x hy hx j hzero
    obtain ⟨habstol, hyj, hxj⟩ := (StepController.tolerance_eq_zero haccepted _ _).1 hzero
    rcases hzeros habstol i hi y x hy hx j with h | h
    · exact h hyj
    · exact h hxj
  obtain ⟨alpha, hzero, hone, halpha⟩ := exists_sizes hinitial hcontroller ha hk' hstart hs hscale
  refine ⟨alpha, hzero, hone, fun i hi => ?_, fun i hi => ?_, fun i hi => ?_⟩
  · cases i with
    | zero => exact (halpha 0 n.zero_le).positive.1
    | succ i => exact (halpha i (Nat.le_of_succ_le_succ hi)).positive.2
  · have hn : 0 < n := Nat.zero_lt_of_lt hi
    obtain ⟨z, hz⟩ := reads_of_course 𝕜 hstart hs hn ((i.sub_le 1).trans hi.le)
    obtain ⟨y, hy⟩ := reads_of_course 𝕜 hstart hs hn hi.le
    obtain ⟨x, hx⟩ := reads_of_course 𝕜 hstart hs hn hi
    rw [← beforePrevious_of_course hstart hs hi.le] at hz
    exact ⟨_, errorOf_nonneg,
      ((halpha i hi.le).step hk' (stepped_of_course hs hi).1 hz hy hx (hscale i hi y x hy hx)).2⟩
  · refine ⟨(halpha i hi).sizes.1, (halpha i hi).sizes.2, (halpha i hi).divides hk',
      fun m y x hm hy => ?_⟩
    -- the iterate before the initial one is the initial one
    have hz : ∃ z : Fin c.problem.size → 𝕜, (s i).ext.beforePrevious.Reads z := by
      rw [beforePrevious_of_course hstart hs hi]
      cases i with
      | zero => exact ⟨y, hy⟩
      | succ i => exact reads_of_course 𝕜 hstart hs (Nat.zero_lt_of_lt hi) (Nat.le_of_succ_le hi)
    obtain ⟨z, hz⟩ := hz
    exact (halpha i hi).estimates haccepted hm hz hy

end Runs

/-- The first step of the run that leads away from its root. -/
theorem fleeing_divides :
    (ofSize (1 / 2) .byMatrix).initial = real (1 / 2) ∧
      (ofSize (1 / 2) .byMatrix).controller = StepController.exact .standard ∧
      (ofSize (1 / 2) .byMatrix).refusal? = none ∧
      (ofSize (1 / 2) .byMatrix).controller.refusal? = none ∧
      (StepController.standard : StepController ℝ).abstol ≠ 0 ∧
      ∃ r₀ s, Run.start (ofSize (1 / 2) .byMatrix).strategy fleeingSetup () = .ok r₀ ∧
        Run.Course (ofSize (1 / 2) .byMatrix).strategy fleeingSetup r₀ s 1 ∧
        ∃ alpha : Nat → ℝ, alpha 0 = 1 / 2 ∧ alpha 1 = 1 / 2 ∧ (∀ i ≤ 1 + 1, 0 < alpha i) ∧
          (∀ i < 1, ∃ error, 0 ≤ error ∧ (s (i + 1)).ext.error = real error) ∧
          ∀ i ≤ 1, (s i).ext.alphaPrevious = real (alpha i) ∧
            (s i).ext.alpha = real (alpha (i + 1)) ∧ Divides (s i) ∧
            ∀ m, ∀ y x : Fin 1 → ℝ, Moved (s i) m x → (s i).u.Reads y →
              Estimates .standard m y x := by
  have haccepted : (ofSize (1 / 2) .byMatrix).refusal? = none := ofSize_refusal one_half_pos _
  have habstol : (StepController.standard : StepController ℝ).abstol ≠ 0 := by
    norm_num [StepController.standard]
  obtain ⟨r₀, t, hstart, -, -, -, hstep, hgoing, -⟩ :=
    fleeing_goes (d := fun _ => -1) one_half_pos .byMatrix rfl (by norm_num)
      fun D b w hD hb hw => fleeing_eliminates hD hb (by rw [hw]; rfl)
  have hcourse := Run.Course.single hstep hgoing
  exact ⟨rfl, rfl, haccepted, standard_refusal, habstol, r₀, _, hstart, hcourse,
    run_divides ℝ (ofSize (1 / 2) .byMatrix) fleeingSetup () rfl rfl haccepted standard_refusal
      hstart hcourse fun h => absurd h habstol⟩

/-! ## A coordinate that stays zero -/

section Undefined

theorem foldl_add_undefined {xs : List Exact} {a : Exact} (h : a = undefined ∨ undefined ∈ xs) :
    xs.foldl (· + ·) a = undefined := by
  have hright (b : Exact) : b + undefined = undefined := by cases b <;> rfl
  have hleft (b : Exact) : undefined + b = undefined := by cases b <;> rfl
  induction xs generalizing a with
  | nil => exact h.resolve_right List.not_mem_nil
  | cons x xs ih =>
    refine ih ?_
    rcases h with rfl | h
    · exact .inl (hleft x)
    · rcases List.mem_cons.1 h with rfl | h
      · exact .inl (hright a)
      · exact .inr h

/-- The root mean square is undefined if one of the numbers is. -/
theorem rms_undefined {v : Vec Exact} (h : undefined ∈ v.toList) : v.rms = undefined := by
  have hsize : v.size ≠ 0 := (List.length_pos_of_mem h).ne'
  have hmem : undefined ∈ List.map (fun x : Exact => Scalar.square (Entry.abs x)) v.toList :=
    List.mem_map.2 ⟨_, h, rfl⟩
  have htotal : (v.map fun x : Exact => Scalar.square (Entry.abs x)).total = undefined :=
    foldl_add_undefined (.inr hmem)
  rw [Vec.rms, if_neg hsize, htotal, undefined_div]
  rfl

theorem zero_over_zero : real 0 / real 0 = undefined := by
  refine (if_pos rfl).trans ?_
  simp [infinityOf]

/-- Without an absolute tolerance the error is undefined where three iterates are zero in one
coordinate. -/
theorem estimateError_undefined {n : Nat} {u v w : Vec Exact} {x y z : Fin n → ℝ}
    {alpha alphaPrevious : ℝ} (hu : u.Reads x) (hv : v.Reads y) (hw : w.Reads z)
    (halpha : 0 < alpha) (hprevious : 0 < alphaPrevious) {i : Fin n} (hx : x i = 0) (hy : y i = 0)
    (hz : z i = 0) (reltol : ℝ) :
    estimateError ⟨u, v, w⟩ (real alpha) (real alphaPrevious) (real 0) (real reltol) Vec.rms =
      .ok undefined := by
  obtain ⟨d, hd, hslopes⟩ := secantDifference_exact hu hv hw halpha hprevious
  obtain ⟨s, hs, htolerances⟩ := errorScale_exact (w := w) hu hv 0 reltol
  obtain ⟨slope, hslope, hdreads⟩ : ∃ slope : Fin n → ℝ, slope i = 0 ∧ d.Reads slope :=
    ⟨_, by rw [hx, hy, hz]; norm_num, hslopes⟩
  obtain ⟨tolerance, htolerance, hsreads⟩ :
      ∃ tolerance : Fin n → ℝ, tolerance i = 0 ∧ s.Reads tolerance :=
    ⟨_, by rw [hx, hy]; norm_num, htolerances⟩
  have hsquare : Checked.square (real alpha) = .ok (real (alpha * alpha)) := rfl
  have hfactor : ∃ factor, (7.0 / 12.0 * real (alpha * alpha) : Exact) = real factor :=
    ⟨_, by rw [ofScientific_eq, ofScientific_eq, Exact.real_div (by norm_num), real_mul]⟩
  obtain ⟨factor, hfactor⟩ := hfactor
  have hentry : 7.0 / 12.0 * real (alpha * alpha) * real (slope i) / real (tolerance i) =
      undefined := by
    rw [hfactor, hslope, htolerance, real_mul, mul_zero]
    exact zero_over_zero
  have hscaled : undefined ∈
      (Vec.zipWith (fun d s : Exact => 7.0 / 12.0 * real (alpha * alpha) * d / s) d s).toList := by
    rw [Vec.reads_iff] at hdreads hsreads
    change _ ∈ List.zipWith _ d.toList s.toList
    rw [hdreads, hsreads, Vec.zipWith_ofFn]
    exact List.mem_ofFn.2 ⟨i, hentry⟩
  unfold estimateError
  simp only [hsquare, hd, hs]
  change (Vec.align (fun d s => 7.0 / 12.0 * real (alpha * alpha) * d / s) d s >>=
    fun scaled => pure (Vec.rms (.ofReals scaled : Vec Exact))) = _
  rw [Vec.align_of_size (hdreads.size.trans hsreads.size.symm)]
  exact congrArg Except.ok (rms_undefined (List.mem_map.2 ⟨_, hscaled, rfl⟩))

/-- Such a step leaves the error and the next size undefined. -/
theorem adapt_undefined {σ : Type} {r : Run σ Exact Exact (State Exact Exact)}
    {k : StepController ℝ} {n : Nat} {x y z : Fin n → ℝ} {alphaPrevious alpha : ℝ}
    (hk : k.Accepted) (habstol : k.abstol = 0) (hb : Boundary k r alphaPrevious alpha)
    (hz : r.ext.beforePrevious.Reads z) (hy : r.previous.Reads y) (hx : r.u.Reads x) {i : Fin n}
    (hxi : x i = 0) (hyi : y i = 0) (hzi : z i = 0) :
    adapt.Ends r
      (fun _ t => t.stopped = r.stopped ∧ t.ext.error = undefined ∧ t.ext.alpha = undefined)
      (fun _ _ => False) := by
  obtain ⟨qold, hcontroller⟩ := hb.controller
  have hestimate := estimateError_undefined hx hy hz hb.positive.2 hb.positive.1 hxi hyi hzi
    k.reltol
  rw [← habstol] at hestimate
  have hgains : r.ext.controller.HasGains k := by
    rw [hcontroller]
    exact ⟨rfl, rfl, rfl⟩
  obtain ⟨accepted, back, hupdate⟩ : ∃ accepted back,
      (StepController.update undefined r.ext.alpha).eval r.ext.controller =
        (.ok (undefined, accepted), { r.ext.controller with qold := back }) :=
    StepController.update_undefined hgains hk (.inl rfl)
  refine (adapt_controls ?_ hupdate).mono (fun _ t ht => ⟨ht.1, congrArg (·.error) ht.2.2,
    congrArg (·.alpha) ht.2.2⟩) (fun _ _ h => h)
  rw [hcontroller, hb.sizes.1, hb.sizes.2]
  exact hestimate

end Undefined

/-- Two equations that do not depend on each other; the second one holds at the start. -/
noncomputable def pairProblem : Problem Unit Exact Exact where
  residual := .returning fun t w => (.ok ⟨t.shape, t.entries - .ofList [real 1, real 0]⟩, w)
  guess := ⟨[2], .ofList [real (-1), real 0]⟩
  jacobian := some fun _ w => (.ok (.dense ⟨2, [[real 1, real 0], [real 0, real 1]], by simp⟩), w)

noncomputable def pairSetup : Setup Unit Exact Exact where
  problem := pairProblem
  options :=
    { abstol := 1e-8, reltol := 1e-8, termination := { Termination.standard with mode := .abs }
      norm := Vec.norm }
  backend := .standard

/-- The standard controller without an absolute tolerance. -/
noncomputable def relativeController : StepController ℝ :=
  { StepController.standard with abstol := 0 }

/-- The strategy with a first step of size one and that controller. -/
noncomputable def relative : PseudoTransient Exact where
  initial := real 1
  controller := relativeController.exact

theorem pair_pivots (rect : ∀ r ∈ [[real (1 + 1), real 0], [real 0, real (1 + 1)]], r.length = 2) :
    (TriangularFactors.ofDense (R := Exact)
      ⟨2, [[real (1 + 1), real 0], [real 0, real (1 + 1)]], rect⟩).pivots =
        [real (1 + 1), real (1 + 1)] := by
  have hsingle (x : Exact) : TriangularFactors.pivotPlace (R := Exact) [x] = 0 := rfl
  have hlarger : ¬Entry.abs (real (1 + 1)) < (Entry.abs (real 0) : Exact) := by
    change ¬real |1 + 1| < real |0|
    norm_num
  have hplace : TriangularFactors.pivotPlace (R := Exact) [real (1 + 1), real 0] = 0 := by
    simp only [TriangularFactors.pivotPlace, List.zipIdx_cons, List.zipIdx_nil, List.foldl_cons,
      List.foldl_nil, if_neg hlarger, Option.elim]
  have hnonzero : ¬Entry.isZero (real (1 + 1)) = true := by
    rw [isZero_iff, Exact.real.injEq]
    norm_num
  simp only [TriangularFactors.ofDense, TriangularFactors.ofRows, List.map_cons, List.map_nil,
    List.headD_cons, hplace, TriangularFactors.exchange, List.zipWith_cons_cons,
    List.zipWith_nil_left, List.tail_cons, hsingle, List.getElem?_cons_zero, if_true,
    TriangularFactors.pivots]
  have htwice : (1 + 1 : ℝ) ≠ 0 := by norm_num
  simp only [hnonzero, Bool.false_eq_true, if_false, Exact.real_div htwice, real_mul, real_sub,
    mul_zero, sub_zero]

theorem target_reads : (Vec.ofList [real 1, real 0] : Vec Exact).Reads ![(1 : ℝ), 0] := rfl

theorem pair_evaluate {v : Vec Exact} {x : Fin 2 → ℝ} (hv : v.Reads x)
    (w : Workspace Unit Exact Exact) :
    (pairProblem.evaluate v).Ends w (fun fu _ => fu.Reads (x - ![1, 0])) (fun _ _ => False) := by
  have hshape : pairProblem.restructure v = .ok ⟨[2], v⟩ := by
    rw [hv]
    rfl
  simp only [Problem.evaluate, ends_bind]
  exact (ends_ofFault_ok hshape).2 (hv.sub target_reads)

theorem pair_jacobian (s : JacobianSettings Exact) {v fu : Vec Exact} {x f : Fin 2 → ℝ}
    (hv : v.Reads x) (hfu : fu.Reads f) (w : Workspace Unit Exact Exact) :
    (pairSetup.problem.jacobianAt s v (some fu)).Ends w
      (fun J w' => J = .dense ⟨2, [[real 1, real 0], [real 0, real 1]], by simp⟩ ∧
        w'.system = w.system) (fun _ _ => False) := by
  rw [hv, hfu]
  exact ⟨rfl, rfl⟩

theorem relativeController_accepted : relativeController.exact.refusal? = none := by
  unfold StepController.refusal?
  simp only [StepController.exact, relativeController, StepController.standard]
  norm_num

theorem relative_accepted : relative.refusal? = none := by
  unfold refusal? relative
  norm_num

/-- The start of the run for the two equations. -/
theorem pair_starts :
    ∃ r, Run.start relative.strategy pairSetup () = .ok r ∧ r.work.system.method = none ∧
      r.u.Reads ![(-1 : ℝ), 0] ∧ r.fu.Reads (![(-1 : ℝ), 0] - ![1, 0]) ∧
      r.checker.settings.mode = .abs ∧ r.checker.abstol = 1e-8 ∧ r.stopped = false := by
  have hguess : pairProblem.guess.entries.Reads ![(-1 : ℝ), 0] := rfl
  exact ⟨_, rfl, rfl, rfl, hguess.sub target_reads, rfl, rfl, rfl⟩

/-- The matrix of the first step. -/
noncomputable def pairMatrix : FieldMatrix ℝ 2 2 :=
  FieldMatrix.addDiagonal !![1, 0; 0, 1] fun _ => (1 / 1 : ℝ)

theorem pairMatrix_eq : pairMatrix = !![1 + 1, 0; 0, 1 + 1] := by
  funext i j
  fin_cases i <;> fin_cases j <;> norm_num [pairMatrix, FieldMatrix.addDiagonal_apply]

theorem pair_factorizes {D : Dense Exact} {w : Workspace Unit Exact Exact}
    (hD : D.Reads pairMatrix) (hw : w.system.method = none) :
    (LinearSystem.factorize pairSetup.backend (.dense D)).Ends w (fun _ _ => True)
      (fun _ _ => False) := by
  rw [pairMatrix_eq] at hD
  obtain ⟨cols, rows, rect⟩ := D
  obtain rfl : cols = 2 := hD.cols
  obtain rfl : rows = [[real (1 + 1), real 0], [real 0, real (1 + 1)]] := hD.rows
  refine LinearSystem.factorize_of_pivots rfl ?_ (by rw [hw]; rfl)
  have haccepted : singularDetails? [real |1 + 1|, real |1 + 1|] 2 = none :=
    LinearSystem.equal_accepted (d := 1 + 1) (by norm_num) (by simp) (by simp) (by norm_num)
  rw [pair_pivots]
  exact haccepted

theorem pair_eliminates {D : Dense Exact} {b : Vec Exact} {w : Workspace Unit Exact Exact}
    (hD : D.Reads pairMatrix) (hb : b.Reads (![(-1 : ℝ), 0] - ![1, 0]))
    (hw : w.system.method = none) :
    (LinearSystem.factorize pairSetup.backend (.dense D)).Ends w
      (fun _ w' => (LinearSystem.solve pairSetup.backend pairSetup.problem.evaluate b).Ends w'
        (fun du _ => du.Reads ![(-1 : ℝ), 0]) (fun _ _ => False)) (fun _ _ => False) := by
  have hA : (Matrix.dense D : Matrix Exact Exact).Reads pairMatrix := hD
  have hdirect : (w.system.method.getD
      (SolveMethod.forMatrix (Matrix.dense D : Matrix Exact Exact))).IsDirect := by
    rw [hw]
    exact hA.forMatrix_isDirect
  have hsolves := LinearSystem.eliminates (Backend.standard_eliminates ℝ) hA hb
    pairSetup.problem.evaluate hdirect
  refine ((pair_factorizes hD hw).and hsolves).mono (fun _ w' h => ?_) (fun _ _ h => h.1)
  refine h.2.mono (fun du _ hdu => ?_) (fun _ _ h => h)
  obtain ⟨d, hd, hsolution⟩ := hdu
  rw [pairMatrix_eq] at hsolution
  have hfirst := congrFun hsolution 0
  have hsecond := congrFun hsolution 1
  norm_num [Matrix.mulVec, dotProduct, Fin.sum_univ_two] at hfirst hsecond
  obtain rfl : d = ![-1, 0] := by
    funext i
    fin_cases i
    · change d 0 = -1
      linarith
    · change d 1 = 0
      linarith
  exact hd

/-- Where a coordinate is zero before and after a step, and no absolute tolerance is set, the error
of the step is undefined. -/
theorem pair_undefined :
    relative.refusal? = none ∧ relative.controller.refusal? = none ∧
      ∃ r t, Run.start relative.strategy pairSetup () = .ok r ∧
        (Run.step relative.strategy pairSetup).eval r = (.ok (), t) ∧ t.stopped = false ∧
        t.ext.error = undefined ∧ t.ext.alpha = undefined := by
  obtain ⟨r, hstart, hmethod, hu, hfu, hmode, habstol, hstopped⟩ := pair_starts
  obtain ⟨hboundary, hbefore⟩ := Boundary.of_start (a := relative) (k := relativeController)
    rfl rfl relative_accepted hstart
  obtain ⟨J, w, hmade, rfl, hw⟩ := (pair_jacobian r.ext.jacobians hu hfu r.work).exists_ok
  have hJ : (Matrix.dense ⟨2, [[real 1, real 0], [real 0, real 1]], by simp⟩ :
      Matrix Exact Exact).Reads (!![1, 0; 0, 1] : FieldMatrix ℝ 2 2) := ⟨rfl, rfl⟩
  obtain ⟨D, hshift⟩ : ∃ D : Dense Exact, (Matrix.dense ⟨2, [[real 1, real 0], [real 0, real 1]],
      by simp⟩ : Matrix Exact Exact).shift (real (1 / 1)) = .ok (.dense D) := ⟨_, rfl⟩
  have hD : D.Reads pairMatrix := hJ.shift hshift
  have hsystem := pair_eliminates (w := w) hD hfu (by rw [hw, hmethod])
  have hdirection : (direction pairSetup).Ends r
      (fun du t => du.Reads ![(-1 : ℝ), 0] ∧ t = { r with work := t.work }) (fun _ _ => False) :=
    direction_answers hmade hboundary.shift hshift hsystem
  have hk : relativeController.Accepted :=
    StepController.accepted_of_refusal relativeController_accepted
  have hadapt (m : Run Unit Exact Exact (State Exact Exact))
      (hm : Moved r m (![(-1 : ℝ), 0] - ![-1, 0])) : adapt.Ends m
        (fun _ t => t.stopped = false ∧ t.ext.error = undefined ∧ t.ext.alpha = undefined)
        (fun _ _ => False) := by
    have hbeforePrevious : m.ext.beforePrevious.Reads ![(-1 : ℝ), 0] := hm.ext ▸ hbefore ▸ hu
    exact (adapt_undefined (i := 1) hk rfl (hboundary.of_ext hm.ext) hbeforePrevious
      (hm.previous ▸ hu) hm.u (by norm_num) (by norm_num) (by norm_num)).mono
      (fun _ t ht => ⟨ht.1.trans (hm.stopped.trans hstopped), ht.2⟩) (fun _ _ h => h)
  obtain ⟨_, t, ht, hgoes, herror, hsize⟩ := (step_adapts hu hdirection
    (fun v w hv => pair_evaluate hv w)
    (fun v fu hv hfu => Checker.entry_check (i := 0) hmode habstol hv hfu (by norm_num) r.u)
    hadapt).exists_ok
  refine ⟨relative_accepted, relativeController_accepted, r, _, hstart, Run.step_of_ok ht, ?_⟩
  simp only [Run.recorded_stopped, Run.recorded_ext]
  exact ⟨hgoes, herror, hsize⟩

end PseudoTransient

end RootFinding
