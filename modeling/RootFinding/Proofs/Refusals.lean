import RootFinding.Proofs.DampedSystems
import RootFinding.Proofs.Success

/-!
# Refused steps of Levenberg-Marquardt runs

A step that is refused raises the damping and tries again with the same Jacobian, so the velocities
get short. Where short steps go downhill without turning back a run cannot refuse its steps for
ever.

* `LevenbergMarquardt.Refusals a c n r t`: from `r` to `t` by `n` steps in a row that are refused,
  whether the run has steps left or not.
* `LevenbergMarquardt.Waits`: what stays the same as long as steps are refused.
* `LevenbergMarquardt.run_accepts_downhill`: the rule on every trial of a run, and the end of its
  refusals.
* `LevenbergMarquardt.kink_refused`: a run that refuses all of its steps, although each trial goes
  downhill, because they turn back.
-/

open scoped Matrix

namespace RootFinding

open Action Exact ExactEntry

namespace LevenbergMarquardt

variable {σ 𝕜 K : Type} [RCLike 𝕜] [Entry Exact K] [ExactEntry 𝕜 K] [ExactParts 𝕜 K]
  {a : LevenbergMarquardt Exact} {c : Setup σ Exact K}
  {r₀ r s t : Run σ Exact K (State Exact K)} {J A : Matrix Exact K} {v fu : Vec K}
  {w : Workspace σ Exact K} {taken : Bool} {damping increase decrease floor b : ℝ}

/-! ## Refusals -/

/-- The step from `r` to `t` is refused, and the run has not failed. -/
structure Refuses (a : LevenbergMarquardt Exact) (c : Setup σ Exact K)
    (r t : Run σ Exact K (State Exact K)) : Prop where
  step : (Run.step a.strategy c).eval r = (.ok (), t)
  error : t.error = none
  renew : t.ext.renew = false

/-- From `r` to `t` by so many steps in a row that are refused. The limit of steps of the run does
not count. -/
inductive Refusals (a : LevenbergMarquardt Exact) (c : Setup σ Exact K) :
    Nat → Run σ Exact K (State Exact K) → Run σ Exact K (State Exact K) → Prop
  | refl {r : Run σ Exact K (State Exact K)} : Refusals a c 0 r r
  | more {n : Nat} {r s t : Run σ Exact K (State Exact K)} (refused : Refuses a c r s)
    (rest : Refusals a c n s t) : Refusals a c (n + 1) r t

omit [RCLike 𝕜] [ExactEntry 𝕜 K] [ExactParts 𝕜 K] in
theorem Refuses.unique (h : Refuses a c r s) (h' : Refuses a c r t) : t = s := by
  have hsame := h'.step.symm.trans h.step
  simpa only [Prod.mk.injEq, true_and] using hsame

omit [RCLike 𝕜] [ExactEntry 𝕜 K] [ExactParts 𝕜 K] in
/-- A step of the loop that has not failed has got its Jacobian, tried a velocity and been told
whether to take it. -/
theorem loop_tried (hgeodesic : a.geodesic.active = false)
    (h : (Run.step a.strategy c).eval r = (.ok (), t)) (ht : t.error = none) :
    ∃ J A s v fu taken t', Stepped a c r J A s taken t' ∧ t = Run.recorded c r.u t' ∧
      Tries c r J A s v fu t.work ∧ a.accepts r.ext v (c.options.norm fu) = .ok taken ∧
      Leaves r v fu taken t ∧ t.fu.isFinite = true := by
  obtain ⟨t', ht', rfl⟩ := Run.step_going h ht
  obtain ⟨b, htested⟩ := (a.proceeds c r).ok ht'
  obtain ⟨J, A, s, taken, hstepped⟩ := (step_stepped r).ok ht'
  obtain ⟨J', A', s', v, fu, taken', htries, haccepts, hleaves⟩ := (step_tried hgeodesic r).ok ht'
  -- both descriptions are of the same step
  obtain ⟨s₁, hverdict⟩ := hstepped.verdict
  obtain ⟨s₂, hverdict', -⟩ := htries.verdict hgeodesic haccepts
  cases hstepped.model.symm.trans htries.model
  cases hverdict.symm.trans hverdict'
  refine ⟨J, A, s, v, fu, taken, t', hstepped, rfl, ?_, haccepts, ?_, ?_⟩
  · rw [Run.recorded_work]
    exact htries
  · refine ⟨?_, ?_, ?_⟩
    · rw [Run.recorded_u, hleaves.u]
    · rw [Run.recorded_fu, hleaves.fu]
    · rw [Run.recorded_ext, hleaves.velocity]
  · rw [Run.recorded_fu]
    exact htested.isFinite.2

omit [RCLike 𝕜] [ExactEntry 𝕜 K] [ExactParts 𝕜 K] in
/-- What the step of the loop leaves whose trial has been judged. -/
theorem Tries.stepped (hgeodesic : a.geodesic.active = false) (h : Tries c r J A s v fu w)
    (haccepts : a.accepts r.ext v (c.options.norm fu) = .ok taken)
    (hstep : (Run.step a.strategy c).eval r = (.ok (), t)) (ht : t.error = none) :
    ∃ t', Stepped a c r J A s taken t' ∧ t = Run.recorded c r.u t' ∧ t.work = w ∧
      Leaves r v fu taken t := by
  obtain ⟨J', A', s', v', fu', taken', t', hstepped, hrecorded, htries, haccepts', hleaves, -⟩ :=
    loop_tried hgeodesic hstep ht
  cases h.model.symm.trans htries.model
  obtain ⟨rfl, rfl, hwork⟩ := h.unique htries
  cases haccepts.symm.trans haccepts'
  exact ⟨t', hstepped, hrecorded, hwork, hleaves⟩

omit [RCLike 𝕜] [ExactEntry 𝕜 K] [ExactParts 𝕜 K] in
theorem Refuses.tried (hgeodesic : a.geodesic.active = false) (h : Refuses a c r t) :
    ∃ J A s v fu t', Stepped a c r J A s false t' ∧ t = Run.recorded c r.u t' ∧
      Tries c r J A s v fu t.work ∧ a.accepts r.ext v (c.options.norm fu) = .ok false ∧
      t.fu.isFinite = true := by
  obtain ⟨J, A, s, v, fu, taken, t', hstepped, rfl, htries, haccepts, -, hfinite⟩ :=
    loop_tried hgeodesic h.step h.error
  obtain rfl : taken = false := by
    obtain ⟨gradient, velocity, hext⟩ := hstepped.ext
    have hrenew := h.renew
    rwa [Run.recorded_ext, hext] at hrenew
  exact ⟨J, A, s, v, fu, t', hstepped, rfl, htries, haccepts, hfinite⟩

omit [RCLike 𝕜] [ExactEntry 𝕜 K] [ExactParts 𝕜 K] in
/-- A step whose trial has been judged ends as its check does. -/
theorem Tries.ends (hgeodesic : a.geodesic.active = false) (h : Tries c r J A s v fu w)
    (haccepts : a.accepts r.ext v (c.options.norm fu) = .ok taken)
    {P : Run σ Exact K (State Exact K) → Prop}
    {E : Thrown Exact K → Run σ Exact K (State Exact K) → Prop}
    (hcheck : ∀ t, Leaves r v fu taken t → t.checker = r.checker → t.status = r.status →
      (Run.check : Stepping σ Exact K (State Exact K) Bool).Ends t (fun _ t => P t) E) :
    (a.step c).Ends r (fun _ t => P t) E := by
  obtain ⟨t, hverdict, hleaves⟩ := h.verdict hgeodesic haccepts
  have hadvanced : Run.Advanced c r t := by
    have hs : Run.Advanced c r s :=
      Run.Advanced.refl.of_rest ((model_modelled r).ok h.model : Modelled c r J A s).rest
    have hends : (a.verdict c J A).Ends s (fun _ t => Run.Advanced c r t) (fun _ _ => True) := by
      rw [verdict_eq hgeodesic]
      refine Ends.bind_keeps (velocity_keeps c J A) (fun v s' hs' => ?_) (fun _ _ _ => trivial)
      exact (a.attempt_advanced v v (hs.of_rest hs')).mono (fun _ _ h => h) (fun _ _ _ => trivial)
    exact hends.ok hverdict
  have hchecks : ∀ t' : Run σ Exact K (State Exact K), t'.u = t.u → t'.fu = t.fu →
      t'.ext.velocity = t.ext.velocity → t'.checker = t.checker → t'.status = t.status →
      (do a.adapt; let _ ← Run.check : Stepping σ Exact K (State Exact K) Unit).Ends t'
        (fun _ t => P t) E := by
    intro t' hu hfu hvelocity hchecker hstatus
    simp only [adapt, ends_bind, ends_modify]
    exact hcheck _ ⟨hu.trans hleaves.u, hfu.trans hleaves.fu, hvelocity.trans hleaves.velocity⟩
      (hchecker.trans hadvanced.checker) (hstatus.trans hadvanced.status)
  have hsettles : (a.settle taken).Ends t (fun _ t => P t) E := by
    unfold settle
    split
    · rw [ends_bind, ends_get, ends_bind, Run.ends_notice]
      exact hchecks _ rfl rfl rfl rfl rfl
    · exact hchecks _ rfl rfl rfl rfl rfl
  rw [step_eq, ends_bind]
  refine ends_iff.2 ⟨fun X s' hmodel => ?_, fun e s' hmodel => ?_⟩
  · cases h.model.symm.trans hmodel
    rw [ends_bind]
    refine ends_iff.2 ⟨fun taken' t' ht => ?_, fun e t' ht => ?_⟩
    · cases hverdict.symm.trans ht
      exact hsettles
    · cases hverdict.symm.trans ht
  · cases h.model.symm.trans hmodel

omit [RCLike 𝕜] [ExactEntry 𝕜 K] [ExactParts 𝕜 K] in
/-- So the run goes on if the iterate has not converged. -/
theorem Tries.goes (hgeodesic : a.geodesic.active = false) (h : Tries c r J A s v fu w)
    (haccepts : a.accepts r.ext v (c.options.norm fu) = .ok taken)
    (hcheck : ∀ previous, (Checker.check (if taken then fu else r.fu)
      (if taken then r.u + v else r.u) previous).Ends r.checker (fun b _ => b = false)
        (fun _ _ => False)) :
    ∃ t, (Run.step a.strategy c).eval r = (.ok (), t) ∧ t.stopped = r.stopped ∧
      t.error = r.error := by
  have hends : (a.step c).Ends r (fun _ t => t.stopped = r.stopped ∧ t.error = r.error)
      (fun _ _ => False) := by
    refine h.ends hgeodesic haccepts fun t hleaves hchecker hstatus => ?_
    simp only [Run.check, ends_bind, ends_get, ends_within]
    rw [hleaves.u, hleaves.fu, hchecker]
    refine (hcheck t.previous).mono (fun b k hb => ?_) (fun _ _ h => h)
    subst hb
    exact ⟨Run.stopped_of_status hstatus, Run.error_of_status hstatus⟩
  obtain ⟨_, t, ht, hstopped, herror⟩ := hends.exists_ok
  refine ⟨_, Run.step_of_ok ht, ?_, ?_⟩
  · rw [Run.recorded_stopped, hstopped]
  · rw [Run.recorded_error, herror]

/-- What stays the same as long as steps are refused; only the damping `x` changes. -/
structure Waits (a : LevenbergMarquardt Exact) (J A : Matrix Exact K) (scaling fu : Vec K) (x : ℝ)
    (r : Run σ Exact K (State Exact K)) : Prop where
  renew : r.ext.renew = false
  stored : r.work.jacobian = some J
  gram : r.ext.gram = some A
  scaling : r.ext.scaling = scaling
  residual : r.fu = fu
  damping : r.ext.damping = real x
  factor : r.ext.factor = a.increase

omit [RCLike 𝕜] [ExactEntry 𝕜 K] [ExactParts 𝕜 K] in
/-- The step of a run that has been refused uses what is kept. -/
theorem Waits.modelled {scaling : Vec K} {x : ℝ} (hr : Waits a J A scaling fu x r)
    {J' A' : Matrix Exact K} (h : (model c).eval r = (.ok (J', A'), s)) :
    J' = J ∧ A' = A ∧ s = r := by
  cases (model_modelled r).ok h with
  | kept _ stored gram =>
    exact ⟨Option.some.inj (stored.symm.trans hr.stored),
      Option.some.inj (gram.symm.trans hr.gram), rfl⟩
  | renewed w hrenew => cases hr.renew.symm.trans hrenew

omit [RCLike 𝕜] [ExactEntry 𝕜 K] [ExactParts 𝕜 K] in
theorem Waits.next (hincrease : a.increase = real increase) (hgeodesic : a.geodesic.active = false)
    (hB : c.backend.Frames) {scaling : Vec K} {x : ℝ} (hr : Waits a J A scaling fu x r)
    (h : Refuses a c r t) : Waits a J A scaling fu (x * increase) t := by
  obtain ⟨J', A', s, v, fu', t', hstepped, rfl, -, -, -⟩ := h.tried hgeodesic
  obtain ⟨rfl, rfl, rfl⟩ := hr.modelled hstepped.model
  obtain ⟨gradient, velocity, hext⟩ := hstepped.ext
  refine ⟨h.renew, ?_, ?_, ?_, ?_, ?_, ?_⟩
  · rw [Run.recorded_work]
    exact hstepped.stored hB
  · rw [Run.recorded_ext, hext, hr.gram]
  · rw [Run.recorded_ext, hext, hr.scaling]
  · rw [Run.recorded_fu, (hstepped.stays rfl).2, hr.residual]
  · rw [Run.recorded_ext, hext]
    simp only [hr.damping, hr.factor, hincrease, Bool.false_eq_true, if_false, real_mul]
  · rw [Run.recorded_ext, hext]

/-! ## The end of refusals -/

section Refusals

/-- As long as steps from `r` on are refused, trials no longer than `ε` descend. -/
def Yields (a : LevenbergMarquardt Exact) (c : Setup σ Exact K) (ε : ℝ)
    (r : Run σ Exact K (State Exact K)) : Prop :=
  ∀ n t, Refusals a c n r t → ∀ J A s v fu w, Tries c t J A s v fu w → v.norm ≤ real ε →
    Descends c t v fu

variable {scaling : Vec K} {x ε miss : ℝ} {m : Nat} {M : FieldMatrix 𝕜 m c.problem.size}
  {d : Fin c.problem.size → 𝕜} {f : Fin m → 𝕜}

/-- With enough damping the velocities are short. -/
theorem Waits.short (hM : J.Reads M) (hd : scaling.Reads d) (hf : fu.Reads f)
    (hshort : ∀ y, ‖M.damped x d *ᵥ y‖ ≤ (|miss| + 1) * ‖Mᵀ *ᵥ f‖ → euclidean (List.ofFn y) ≤ ε)
    (hr : Waits a J A scaling fu x r) (hsolves : Solves 𝕜 c miss r) {J' A' : Matrix Exact K}
    {v fu' : Vec K} (h : Tries c r J' A' s v fu' w) : v.norm ≤ real ε := by
  obtain ⟨hmodel, s', hvelocity, -⟩ := h
  obtain ⟨rfl, rfl, rfl⟩ := hr.modelled hmodel
  obtain ⟨y, hy, hmiss⟩ := hsolves J' A' s v s' hmodel hvelocity M d f x hM
    (by rw [hr.residual]; exact hf) hr.damping (by rw [hr.scaling]; exact hd)
  have hle : ‖M.damped x d *ᵥ y‖ ≤ (|miss| + 1) * ‖Mᵀ *ᵥ f‖ :=
    calc ‖M.damped x d *ᵥ y‖ = ‖M.damped x d *ᵥ y + Mᵀ *ᵥ f - Mᵀ *ᵥ f‖ := by
          rw [add_sub_cancel_right]
      _ ≤ ‖M.damped x d *ᵥ y + Mᵀ *ᵥ f‖ + ‖Mᵀ *ᵥ f‖ := norm_sub_le _ _
      _ ≤ |miss| * ‖Mᵀ *ᵥ f‖ + ‖Mᵀ *ᵥ f‖ := by
          have hmiss' := hmiss.trans
            (mul_le_mul_of_nonneg_right (le_abs_self miss) (norm_nonneg (Mᵀ *ᵥ f)))
          linarith
      _ = (|miss| + 1) * ‖Mᵀ *ᵥ f‖ := by ring
  rw [hy, Vec.norm_numbers]
  exact real_le.2 (hshort y hle)

/-- Between the first refusal and the last, the damping rises to where the velocities are short. -/
theorem Waits.bounded (huphill : a.uphill = real b) (hb : 0 < b)
    (hincrease : a.increase = real increase) (hgeodesic : a.geodesic.active = false)
    (hnorm : ∀ v, ¬c.options.norm v < real 0) (hB : c.backend.Frames)
    (hsize : c.problem.size = Tensor.sizeOf c.problem.guess.shape) (hM : J.Reads M)
    (hd : scaling.Reads d) (hf : fu.Reads f) {least : ℝ}
    (hshort : ∀ x, least ≤ x → ∀ y, ‖M.damped x d *ᵥ y‖ ≤ (|miss| + 1) * ‖Mᵀ *ᵥ f‖ →
      euclidean (List.ofFn y) ≤ ε) {k : Nat} (hleast : least ≤ x * increase ^ k)
    (hr : Waits a J A scaling fu x r) (hlevel : Level a c r) (hyields : Yields a c ε r)
    (hsolves : ∀ n t, Refusals a c n r t → Solves 𝕜 c miss t) {n : Nat}
    (h : Refusals a c n r t) : n ≤ k := by
  induction k generalizing r x n with
  | zero =>
    rw [pow_zero, mul_one] at hleast
    cases h with
    | refl => exact le_rfl
    | more refused rest =>
      -- a trial that is short descends, and so is not refused
      obtain ⟨J', A', s', v, fu', t', -, -, htries, hrefused, -⟩ := refused.tried hgeodesic
      have hdescends := hyields 0 r .refl _ _ _ _ _ _ htries
        (hr.short hM hd hf (hshort x hleast) (hsolves 0 r .refl) htries)
      have hpasses := hdescends.passes 𝕜 hb hnorm
      rw [← hlevel.loss] at hpasses
      obtain ⟨taken, haccepts, hiff⟩ := accepts_iff (𝕜 := 𝕜) huphill hb r.ext v
        (c.options.norm fu')
      cases hrefused.symm.trans (haccepts.trans (congrArg Except.ok (hiff.2 hpasses)))
  | succ k ih =>
    cases h with
    | refl => exact Nat.zero_le _
    | @more n _ s _ refused rest =>
      obtain ⟨J', A', s', v, fu', t', hstepped, rfl, -, -, -⟩ := refused.tried hgeodesic
      have hleast' : least ≤ x * increase * increase ^ k := by
        rwa [mul_assoc, ← pow_succ']
      exact Nat.succ_le_succ (ih hleast' (hr.next hincrease hgeodesic hB refused)
        (hstepped.level hsize hlevel) (fun n t ht => hyields (n + 1) t (ht.more refused))
        (fun n t ht => hsolves (n + 1) t (ht.more refused)) rest)

end Refusals

/-! ## Runs -/

section Runs

variable (hreal : a.HasReals damping increase decrease floor) (ha : a.refusal? = none)
  (huphill : a.uphill = real b) (hb : 0 < b) (hgeodesic : a.geodesic.active = false)
  (hnorm : ∀ v, ¬c.options.norm v < real 0) (hB : c.backend.Frames) (hp : c.problem.ZeroFilled)
  (hsize : c.problem.size = Tensor.sizeOf c.problem.guess.shape)

include hreal ha hgeodesic hB hp hsize

theorem Between.refused (hr : Between 𝕜 a c floor r) (h : Refuses a c r t) :
    Between 𝕜 a c floor t := by
  obtain ⟨J, A, s, v, fu, t', hstepped, rfl, -, -, -⟩ := h.tried hgeodesic
  exact hr.next hreal ha hB hp hsize hstepped

/-- Where all linear systems are solved by elimination, those of refused steps are. -/
theorem Between.solves_refused (hE : c.backend.Eliminates 𝕜) (hr : Between 𝕜 a c floor r)
    (hdirect : IsDirect r) {n : Nat} (h : Refusals a c n r t) : Solves 𝕜 c 0 t := by
  induction h with
  | refl => exact hr.solves hE hp hdirect
  | more refused rest ih =>
    obtain ⟨J, A, s, v, fu, t', -, -, htries, -, -⟩ := refused.tried hgeodesic
    exact ih (hr.refused hreal ha hgeodesic hB hp hsize refused)
      (hr.isDirect hB hp hdirect htries)

include huphill hb hnorm

/-- Refusals come to an end where short trials descend. -/
theorem Between.bounded {ε miss : ℝ} (hε : 0 < ε) (hr : Between 𝕜 a c floor r)
    (hyields : Yields a c ε r) (hsolves : ∀ n t, Refusals a c n r t → Solves 𝕜 c miss t) :
    ∃ N, ∀ n t, Refusals a c n r t → n ≤ N := by
  obtain ⟨-, hincrease, -, hfloor⟩ := hreal.accepted ha
  by_cases hfirst : ∃ s, Refuses a c r s
  · obtain ⟨s, hs⟩ := hfirst
    have hbetween := hr.refused hreal ha hgeodesic hB hp hsize hs
    obtain ⟨J₀, A₀, s₀, v₀, fu₀, t₀, -, -, -, -, hfinite⟩ := hs.tried hgeodesic
    obtain ⟨f, hf⟩ := Vec.reads_of_isFinite (𝕜 := 𝕜) hfinite rfl
    obtain ⟨J, A, M, hstored, hM, hgram, -⟩ := hbetween.kept hs.renew
    obtain ⟨d, hd, hdfloor⟩ := hbetween.scaling
    obtain ⟨x, hx, hdamping⟩ := hbetween.damping
    have hwaits : Waits a J A s.ext.scaling s.fu x s :=
      ⟨hs.renew, hstored, hgram, rfl, rfl, hdamping, hbetween.level.factor⟩
    have hbound : 0 ≤ (|miss| + 1) * ‖Mᵀ *ᵥ f‖ := by positivity
    obtain ⟨least, hshort⟩ := FieldMatrix.exists_damping (Mᵀ * M) hfloor hdfloor hbound hε
    obtain ⟨k, hk⟩ := pow_unbounded_of_one_lt (least / x) hincrease
    have hleast : least ≤ x * increase ^ k := by
      rw [mul_comm]
      exact ((div_lt_iff₀ hx).1 hk).le
    refine ⟨k + 1, fun n t h => ?_⟩
    cases h with
    | refl => exact Nat.zero_le _
    | more refused rest =>
      obtain rfl := hs.unique refused
      exact Nat.succ_le_succ (hwaits.bounded huphill hb hreal.increase hgeodesic hnorm hB hsize hM
        hd hf hshort hleast hbetween.level (fun n t ht => hyields (n + 1) t (ht.more refused))
        (fun n t ht => hsolves (n + 1) t (ht.more refused)) rest)
  · refine ⟨0, fun n t h => ?_⟩
    cases h with
    | refl => exact le_rfl
    | more refused rest => exact absurd ⟨_, refused⟩ hfirst

end Runs

variable (𝕜) in
/-- **The uphill rule along a run.**  Take a Levenberg-Marquardt run with accepted settings, an
exponent of the rule that is positive and no second order correction. On every trial of the run the
rule answers: the step is taken exactly if the residual norm is a number, the cosine of the turn is
one, and the norm times the power of one minus the cosine is not above the present norm. So a trial
downhill is taken, whatever velocity was taken last, unless it turns back against it. And wherever
short trials go downhill without turning back, only so many steps in a row are refused, if the
linear systems are solved up to some multiple of their right-hand sides; by elimination they are. -/
theorem run_accepts_downhill (a : LevenbergMarquardt Exact) (c : Setup σ Exact K) (world : σ)
    {damping increase decrease floor b : ℝ} (hreal : a.HasReals damping increase decrease floor)
    (ha : a.refusal? = none) (huphill : a.uphill = real b) (hb : 0 < b)
    (hgeodesic : a.geodesic.active = false) (hnorm : ∀ v, ¬c.options.norm v < real 0)
    (hB : c.backend.Frames) (hp : c.problem.ZeroFilled) {r₀ : Run σ Exact K (State Exact K)}
    (hstart : Run.start a.strategy c world = .ok r₀) :
    ∀ r, Run.Leads a.strategy c r₀ r → r.error = none →
      (∀ J A s v fu w, Tries c r J A s v fu w →
        ∃ taken t, (a.verdict c J A).eval s = (.ok taken, t) ∧ Leaves r v fu taken t ∧
          (taken = true ↔
            Passes b (cosine v r.ext.velocity) (c.options.norm fu) (c.options.norm r.fu)) ∧
          (Descends c r v fu → taken = true)) ∧
      (∀ ε miss : ℝ, 0 < ε → Yields a c ε r →
        (∀ n t, Refusals a c n r t → Solves 𝕜 c miss t) →
          ∃ N, ∀ n t, Refusals a c n r t → n ≤ N) ∧
      (c.backend.Eliminates 𝕜 → IsDirect r → ∀ n t, Refusals a c n r t → Solves 𝕜 c 0 t) := by
  intro r hleads herror
  obtain ⟨hbetween, hsize⟩ := between_of_leads (𝕜 := 𝕜) hreal ha hB hp hstart hleads herror
  refine ⟨fun J A s v fu w htries => ?_, fun ε miss hε hyields hsolves => ?_,
    fun hE hdirect n t h => ?_⟩
  · obtain ⟨taken, haccepts, hiff⟩ := accepts_iff (𝕜 := 𝕜) huphill hb r.ext v (c.options.norm fu)
    obtain ⟨t, hverdict, hleaves⟩ := htries.verdict hgeodesic haccepts
    rw [hbetween.level.loss] at hiff
    exact ⟨taken, t, hverdict, hleaves, hiff, fun h => hiff.2 (h.passes 𝕜 hb hnorm)⟩
  · exact hbetween.bounded hreal ha huphill hb hgeodesic hnorm hB hp hsize hε hyields hsolves
  · exact hbetween.solves_refused hreal ha hgeodesic hB hp hsize hE hdirect h

/-! ## A run that turns back -/

section Kink

/-- A residual with a kink at its least value, which is one. -/
noncomputable def kinkAt (x : ℝ) : ℝ := if 0 < x then 1 + (x + x) else 1 - x

noncomputable def kinkSlope (x : ℝ) : ℝ := if 0 < x then 1 + 1 else -1

theorem kinkAt_left : kinkAt (-(1 / 2)) = 3 / 2 := by norm_num [kinkAt]

theorem kinkAt_right : kinkAt (1 / 4) = 3 / 2 := by norm_num [kinkAt]

theorem kinkSlope_left : kinkSlope (-(1 / 2)) = -1 := by norm_num [kinkSlope]

theorem kinkSlope_right : kinkSlope (1 / 4) = 2 := by norm_num [kinkSlope]

theorem one_le_kinkAt (u : ℝ) : 1 ≤ kinkAt u := by
  unfold kinkAt
  split <;> linarith

/-- A function of the real numbers on the exact ones. -/
noncomputable def lifted (f : ℝ → ℝ) : Exact → Exact
  | real x => real (f x)
  | _ => undefined

noncomputable def kinkProblem : Problem Unit Exact Exact where
  residual := .returning fun t w => (.ok ⟨t.shape, t.entries.map (lifted kinkAt)⟩, w)
  guess := ⟨[1], .ofList [real (-(1 / (1 + 1)))]⟩
  jacobian := some fun t w => (.ok (.row (t.entries.map (lifted kinkSlope))), w)

noncomputable def kinkSetup : Setup Unit Exact Exact where
  problem := kinkProblem
  options :=
    { abstol := 1e-8, reltol := 1e-8, termination := { Termination.standard with mode := .abs }
      norm := Vec.norm }
  backend := .standard

variable {r s t : Run Unit Exact Exact (State Exact Exact)} {J A : Matrix Exact Exact}
  {v fu : Vec Exact} {u f d e x y : ℝ}

theorem kink_evaluate {v : Vec Exact} (hv : v.Reads ![u]) (w : Workspace Unit Exact Exact) :
    (kinkProblem.evaluate v).Ends w (fun fu _ => fu.Reads ![kinkAt u]) (fun _ _ => False) := by
  rw [hv]
  exact rfl

theorem kink_jacobian (j : JacobianSettings Exact) {v fu : Vec Exact} (hv : v.Reads ![u])
    (hfu : fu.Reads ![f]) (w : Workspace Unit Exact Exact) :
    (kinkProblem.jacobianAt j v (some fu)).Ends w
      (fun J w' => J = .dense (.ofRow [real (kinkSlope u)]) ∧ w'.jacobian = some J)
      (fun _ _ => False) := by
  rw [hv, hfu]
  exact ⟨rfl, rfl⟩

/-- The matrix of one entry. -/
abbrev entry (j : ℝ) : FieldMatrix ℝ 1 1 := !![j]

/-- The Jacobian is the slope `j`, and its gram matrix is dense as well. -/
def Models (j : ℝ) (J A : Matrix Exact Exact) : Prop :=
  J.Reads (entry j) ∧ ∃ G, A = .dense G ∧ G.Reads ((entry j)ᵀ * entry j)

/-- Before a step at `u` with the scaling `e` and the damping `x`, where the Jacobian is to be made
or has been kept. -/
structure Ready (u e x : ℝ) (r : Run Unit Exact Exact (State Exact Exact)) : Prop where
  iterate : r.u.Reads ![u]
  residual : r.fu.Reads ![kinkAt u]
  damping : r.ext.damping = real x
  method : r.work.system.method.getD .lu = .lu
  model : (model kinkSetup).Ends r
    (fun X s => Models (kinkSlope u) X.1 X.2 ∧ s.ext.scaling.Reads ![e]) (fun _ _ => False)

theorem Ready.of_new (hrenew : r.ext.renew = true) (hu : r.u.Reads ![u])
    (hfu : r.fu.Reads ![kinkAt u]) (hscaling : r.ext.scaling.Reads ![d])
    (hdamping : r.ext.damping = real x) (hmethod : r.work.system.method.getD .lu = .lu) :
    Ready u (max d (kinkSlope u * kinkSlope u)) x r := by
  refine ⟨hu, hfu, hdamping, hmethod, ?_⟩
  simp only [LevenbergMarquardt.model, renewJacobian, ends_bind, ends_get, hrenew, if_true,
    Run.ends_onWork, Run.ends_update]
  refine (kink_jacobian r.ext.jacobians hu hfu r.work).mono (fun J w hJ => ?_) (fun _ _ h => h)
  obtain ⟨rfl, hstored⟩ := hJ
  have hreads : (Matrix.dense (.ofRow [real (kinkSlope u)]) : Matrix Exact Exact).Reads
      (entry (kinkSlope u)) := ⟨rfl, rfl⟩
  have hgreater := Vec.Reads.zipWith hscaling hreads.gram.diagonal maximum_real
  have hcurvature : ((entry (kinkSlope u))ᵀ * entry (kinkSlope u)) 0 0 =
      kinkSlope u * kinkSlope u := by
    simp [Matrix.mul_apply]
  refine (ends_ofFault_ok (x := (_, _)) ?_).2 ⟨⟨hreads, _, rfl, hreads.gram⟩, ?_⟩
  · simp only [LevenbergMarquardt.kept, hstored]
    rfl
  · convert hgreater using 1
    funext i
    rw [Fin.fin_one_eq_zero i, hcurvature]
    rfl

theorem Ready.of_kept (hrenew : r.ext.renew = false) (hJ : r.work.jacobian = some J)
    (hA : r.ext.gram = some A) (hmodels : Models (kinkSlope u) J A) (hu : r.u.Reads ![u])
    (hfu : r.fu.Reads ![kinkAt u]) (hscaling : r.ext.scaling.Reads ![e])
    (hdamping : r.ext.damping = real x) (hmethod : r.work.system.method.getD .lu = .lu) :
    Ready u e x r := by
  refine ⟨hu, hfu, hdamping, hmethod, ?_⟩
  simp only [LevenbergMarquardt.model, ends_bind, ends_get, hrenew, Bool.false_eq_true, if_false]
  refine (ends_ofFault_ok (x := (J, A)) ?_).2 ⟨hmodels, hscaling⟩
  simp only [LevenbergMarquardt.kept, hJ, hA]

/-- The velocity of a step in one unknown. -/
theorem velocity_single {J : Matrix Exact Exact} {G : Dense Exact} {j : ℝ}
    (hJ : J.Reads (entry j)) (hG : G.Reads ((entry j)ᵀ * entry j))
    (hd : s.ext.scaling.Reads ![d]) (hx : s.ext.damping = real x) (hf : s.fu.Reads ![f])
    (hmethod : s.work.system.method.getD .lu = .lu) (hne : j * j + x * d ≠ 0)
    (hy : (j * j + x * d) * y = -(j * f)) :
    (velocity kinkSetup J (.dense G)).Ends s
      (fun v t => v.Reads ![y] ∧ t.work.system.method = some .lu) (fun _ _ => False) := by
  have hentry : (entry j).damped x ![d] 0 0 = j * j + x * d := by
    simp [FieldMatrix.damped, FieldMatrix.addDiagonal_apply, Matrix.mul_apply]
  have hgradient : ((entry j)ᵀ *ᵥ ![f]) 0 = j * f := by simp [Matrix.mulVec, dotProduct]
  have hanswers : LinearSystem.Answers kinkSetup.backend kinkSetup.problem.evaluate .lu
      ((entry j).damped x ![d]) ((entry j)ᵀ *ᵥ ![f]) ![-y] := by
    refine LinearSystem.answers_single (by rwa [hentry]) ?_ _
    rw [hentry, hgradient]
    exact (mul_neg _ _).trans (by rw [hy, neg_neg])
  have hturned : -![-y] = ![y] := by simp
  have hvelocity := velocity_answers (c := kinkSetup) Backend.standard_frames hJ hG hx hd hf
    hmethod hanswers
  rwa [hturned] at hvelocity

/-- The trial of a step. -/
theorem Ready.tries (hr : Ready u e x r) (hne : kinkSlope u * kinkSlope u + x * e ≠ 0)
    (hy : (kinkSlope u * kinkSlope u + x * e) * y = -(kinkSlope u * kinkAt u)) :
    ∃ J A s v fu w, Tries kinkSetup r J A s v fu w ∧ Models (kinkSlope u) J A ∧
      s.ext.scaling.Reads ![e] ∧ v.Reads ![y] ∧ fu.Reads ![kinkAt (u + y)] ∧
      w.system.method = some .lu := by
  obtain ⟨⟨J, A⟩, s, hmodel, hmodels, hscaling⟩ := hr.model.exists_ok
  obtain ⟨hJ, G, rfl, hG⟩ := hmodels
  have hmodelled : Modelled kinkSetup r J (.dense G) s := (model_modelled r).ok hmodel
  have hdamping : s.ext.damping = real x := by rw [hmodelled.ext, hr.damping]
  have hresidual : s.fu.Reads ![kinkAt u] := by
    rw [Run.eq_of_rest hmodelled.rest]
    exact hr.residual
  have hsystem : s.work.system = r.work.system := ((model_system kinkSetup).ends r).ok hmodel
  obtain ⟨v, s', hvelocity, hv, hmethod⟩ := (velocity_single hJ hG hscaling hdamping hresidual
    (by rw [hsystem]; exact hr.method) hne hy).exists_ok
  obtain ⟨fu, w, hevaluated, hfu⟩ :=
    (kink_evaluate (u := u + y) (hr.iterate.add hv) s'.work).exists_ok
  have hleft : w.model = s'.work.model := ((kinkProblem.evaluate_model _).ends _).ok hevaluated
  exact ⟨J, _, s, v, fu, w, ⟨hmodel, s', hvelocity, hevaluated⟩, ⟨hJ, G, rfl, hG⟩, hscaling, hv,
    hfu, (congrArg (·.2.2.method) hleft).trans hmethod⟩

theorem standard_reals :
    (standard : LevenbergMarquardt Exact).HasReals 1.0 2.0 3.0 1e-8 := ⟨rfl, rfl, rfl, rfl⟩

theorem standard_accepted : (standard : LevenbergMarquardt Exact).refusal? = none := by
  unfold refusal?
  rw [standard_reals.damping, standard_reals.increase, standard_reals.decrease,
    standard_reals.scaling]
  norm_num

theorem standard_uphill : (standard : LevenbergMarquardt Exact).uphill = real 1 := by
  norm_num [standard]

/-- The size of a residual with the kink. -/
theorem norm_kink (hfu : fu.Reads ![kinkAt u]) : fu.norm = real (kinkAt u) := by
  rw [hfu.norm_single, abs_of_pos (zero_lt_one.trans_le (one_le_kinkAt u))]

/-- A run over the kink that goes on. -/
structure Going (r : Run Unit Exact Exact (State Exact Exact)) : Prop where
  level : Level standard kinkSetup r
  follows : r.checker.Follows kinkSetup.options
  stopped : r.stopped = false
  error : r.error = none

/-- No residual is small enough for the run to end, and each step is taken as the rule says. -/
theorem Ready.goes (hr : Ready u e x r) (taken : Bool) (β y : ℝ) (hgoing : Going r)
    (hne : kinkSlope u * kinkSlope u + x * e ≠ 0)
    (hy : (kinkSlope u * kinkSlope u + x * e) * y = -(kinkSlope u * kinkAt u))
    (hturn : ∀ v : Vec Exact, v.Reads ![y] → cosine v r.ext.velocity = real β)
    (htaken : taken = true ↔ (1 - β) * kinkAt (u + y) ≤ kinkAt u) :
    ∃ J A s v fu t' t, Tries kinkSetup r J A s v fu t.work ∧ Models (kinkSlope u) J A ∧
      s.ext.scaling.Reads ![e] ∧ v.Reads ![y] ∧ fu.Reads ![kinkAt (u + y)] ∧
      t.work.system.method = some .lu ∧
      (Run.step (standard : LevenbergMarquardt Exact).strategy kinkSetup).eval r = (.ok (), t) ∧
      Stepped standard kinkSetup r J A s taken t' ∧ t = Run.recorded kinkSetup r.u t' ∧
      Leaves r v fu taken t ∧ Going t := by
  obtain ⟨J, A, s, v, fu, w, htries, hmodels, hscaling, hv, hfu, hmethod⟩ := hr.tries hne hy
  obtain ⟨taken', haccepts, hiff⟩ := accepts_iff (𝕜 := ℝ) standard_uphill one_pos r.ext v
    (kinkSetup.options.norm fu)
  have hloss : r.ext.loss = real (kinkAt u) := hgoing.level.loss.trans (norm_kink hr.residual)
  have hnorm : kinkSetup.options.norm fu = real (kinkAt (u + y)) := norm_kink hfu
  rw [hturn v hv, hnorm, hloss, passes_real, real_le, Real.rpow_one, ← htaken] at hiff
  obtain rfl : taken' = taken := Bool.eq_iff_iff.2 hiff
  have hunmet : ∀ z, (1e-8 : ℝ) < |kinkAt z| := fun z =>
    lt_of_lt_of_le (by norm_num) ((one_le_kinkAt z).trans (le_abs_self _))
  have hmode : r.checker.settings.mode = .abs := by rw [hgoing.follows.settings]; rfl
  have habstol : r.checker.abstol = 1e-8 := hgoing.follows.abstol
  have hchecks : ∀ {z : ℝ} {v fu : Vec Exact}, v.Reads ![z] → fu.Reads ![kinkAt z] → ∀ previous,
      (Checker.check fu v previous).Ends r.checker (fun b _ => b = false) (fun _ _ => False) :=
    fun hv hfu => Checker.entry_check (i := 0) hmode habstol hv hfu (hunmet _)
  obtain ⟨t, hstep, hstopped, herror⟩ := htries.goes rfl haccepts <| by
    cases taken' with
    | true => exact hchecks (hr.iterate.add hv) hfu
    | false => exact hchecks hr.iterate hr.residual
  rw [hgoing.stopped] at hstopped
  rw [hgoing.error] at herror
  obtain ⟨t', hstepped, rfl, rfl, hleaves⟩ := htries.stepped rfl haccepts hstep herror
  have hfollows : (Run.recorded kinkSetup r.u t').checker.Follows kinkSetup.options := by
    cases ((standard : LevenbergMarquardt Exact).proceeds kinkSetup).stepsTo hstep |>.turns
      hgoing.follows with
    | keeps follows | converges follows | fails follows => exact follows
  exact ⟨J, A, s, v, fu, t', _, htries, hmodels, hscaling, hv, hfu, hmethod, hstep, hstepped,
    rfl, hleaves, hstepped.level rfl hgoing.level, hfollows, hstopped, herror⟩

theorem cosine_back {last : Vec Exact} (hv : v.Reads ![y]) (hlast : last.Reads ![x]) (hy : y < 0)
    (hx : 0 < x) : cosine v (some last) = real (-1) := by
  have hzero : (0.0 : Exact) = real 0 := by norm_num
  have hne : ¬Scalar.same v.norm 0.0 = true := by
    rw [hv.norm_single, hzero, same_iff]
    exact fun h => (abs_pos.2 hy.ne).ne' (Exact.real.inj h)
  have hproduct : v.dot last = real (y * x) := by
    rw [Vec.Reads.dot hv hlast]
    simp [number]
  have hlengths : |y| * |x| = -(y * x) := by rw [abs_of_neg hy, abs_of_pos hx, neg_mul]
  have hback : y * x < 0 := mul_neg_of_neg_of_pos hy hx
  refine (if_neg hne).trans ?_
  rw [hv.norm_single, hlast.norm_single, hproduct, real_mul, hlengths]
  exact (Exact.real_div (neg_pos.2 hback).ne').trans (by rw [div_neg_self hback.ne])

/-- After the turn, where each trial goes back over the kink, or towards it. -/
structure Turned (x : ℝ) (r : Run Unit Exact Exact (State Exact Exact)) : Prop where
  ready : Ready (1 / 4) 4 x r
  going : Going r
  last : ∃ v : Vec Exact, v.Reads ![(3 / 4 : ℝ)] ∧ r.ext.velocity = some v
  damped : 1 / 3 ≤ x

/-- A trial downhill that is refused. -/
def RefusesDownhill (r : Run Unit Exact Exact (State Exact Exact)) : Prop :=
  ∃ J A s v fu w t, Tries kinkSetup r J A s v fu w ∧
    (kinkSetup.options.norm fu).isReal = true ∧
    kinkSetup.options.norm fu < kinkSetup.options.norm r.fu ∧
    ((standard : LevenbergMarquardt Exact).verdict kinkSetup J A).eval s = (.ok false, t)

/-- The velocities after the turn lead downhill. -/
theorem exists_back (hx : 1 / 3 ≤ x) : ∃ y,
    (kinkSlope (1 / 4) * kinkSlope (1 / 4) + x * 4) * y = -(kinkSlope (1 / 4) * kinkAt (1 / 4)) ∧
      y < 0 ∧ kinkAt (1 / 4 + y) < kinkAt (1 / 4) := by
  have hpositive : 0 < 4 + 4 * x := by linarith
  refine ⟨-3 / (4 + 4 * x), ?_, div_neg_of_neg_of_pos (by norm_num) hpositive, ?_⟩
  · rw [kinkSlope_right, kinkAt_right]
    field_simp
    ring
  · have hnear : -(9 / 16) ≤ -3 / (4 + 4 * x) := by
      rw [le_div_iff₀ hpositive]
      linarith
    have hback : -3 / (4 + 4 * x) < 0 := div_neg_of_neg_of_pos (by norm_num) hpositive
    rw [kinkAt_right]
    unfold kinkAt
    split <;> linarith

theorem Turned.refuses (hr : Turned x r) :
    RefusesDownhill r ∧ ∃ t, Refuses standard kinkSetup r t ∧ Turned (x * 2) t := by
  obtain ⟨hready, hgoing, ⟨last, hlast, hvelocity⟩, hx⟩ := hr
  obtain ⟨y, hy, hback, hdownhill⟩ := exists_back hx
  obtain ⟨J, A, s, v, fu, t', t, htries, hmodels, hscaling, hv, hfu, hmethod, hstep, hstepped, rfl,
    hleaves, hgoing'⟩ := hready.goes false (-1) y hgoing
      (by rw [kinkSlope_right]; linarith) hy
      (fun v hv => by rw [hvelocity]; exact cosine_back hv hlast hback (by norm_num))
      (by
        have hahead := one_le_kinkAt (1 / 4 + y)
        rw [kinkAt_right]
        exact iff_of_false Bool.false_ne_true (by linarith))
  obtain ⟨gradient, velocity, hext⟩ := hstepped.ext
  have hsext := hstepped.modelled.ext
  obtain ⟨s', hverdict⟩ := hstepped.verdict
  have hsize : kinkSetup.options.norm fu = real (kinkAt (1 / 4 + y)) := norm_kink hfu
  have hsize' : kinkSetup.options.norm r.fu = real (kinkAt (1 / 4)) := norm_kink hready.residual
  refine ⟨⟨J, A, s, v, fu, _, s', htries, ?_, ?_, hverdict⟩, _, ⟨hstep, hgoing'.error, ?_⟩, ?_⟩
  · rw [hsize]
    rfl
  · rw [hsize, hsize']
    exact real_lt.2 hdownhill
  · rw [Run.recorded_ext, hext]
  · have hrenew : (Run.recorded kinkSetup r.u t').ext.renew = false := by
      rw [Run.recorded_ext, hext]
    refine ⟨.of_kept hrenew (J := J) (A := A) ?_ ?_ hmodels ?_ ?_ ?_ ?_ ?_, hgoing',
      ⟨last, hlast, hleaves.velocity.trans hvelocity⟩, by linarith⟩
    · rw [Run.recorded_work]
      exact hstepped.stored Backend.standard_frames
    · rw [Run.recorded_ext, hext, hsext]
    · rw [hleaves.u]
      exact hready.iterate
    · rw [hleaves.fu]
      exact hready.residual
    · rw [Run.recorded_ext, hext]
      exact hscaling
    · have hfactor : s.ext.factor = real 2 := by
        rw [hsext, hgoing.level.factor, standard_reals.increase]
        norm_num
      have hdamping : s.ext.damping = real x := by rw [hsext, hready.damping]
      rw [Run.recorded_ext, hext]
      simp only [hdamping, hfactor, Bool.false_eq_true, if_false, real_mul]
    · rw [hmethod]
      rfl

/-- After the turn all steps are refused. -/
theorem Turned.refusals (hr : Turned x r) (n : Nat) :
    ∃ t, Refusals standard kinkSetup n r t ∧ RefusesDownhill t := by
  induction n generalizing x r with
  | zero => exact ⟨r, .refl, hr.refuses.1⟩
  | succ n ih =>
    obtain ⟨-, s, hrefuses, hs⟩ := hr.refuses
    obtain ⟨t, hrefusals, ht⟩ := ih hs
    exact ⟨t, .more hrefuses hrefusals, ht⟩

/-- The start of the run, left of the kink. -/
theorem kink_starts :
    ∃ r, Run.start (standard : LevenbergMarquardt Exact).strategy kinkSetup () = .ok r ∧
      Ready (-(1 / 2)) 1 1 r ∧ Going r ∧ r.ext.velocity = none ∧
      r.work.system.method = none ∧ r.isActive ∧ r.steps = 0 ∧ r.maxiters = 1000 := by
  have hu : (-(1 / (1 + 1)) : ℝ) = -(1 / 2) := by norm_num
  have hone : (1.0 : ℝ) = 1 := by norm_num
  have hscaling : max (1e-8) (kinkSlope (-(1 / 2)) * kinkSlope (-(1 / 2))) = 1 := by
    norm_num [kinkSlope_left]
  obtain ⟨r, hstart, hready, hrest⟩ : ∃ r,
      Run.start (standard : LevenbergMarquardt Exact).strategy kinkSetup () = .ok r ∧
      Ready (-(1 / (1 + 1)))
        (max (1e-8) (kinkSlope (-(1 / (1 + 1))) * kinkSlope (-(1 / (1 + 1))))) 1.0 r ∧ Going r ∧
      r.ext.velocity = none ∧ r.work.system.method = none ∧ r.isActive ∧ r.steps = 0 ∧
      r.maxiters = 1000 :=
    ⟨_, rfl, .of_new rfl rfl rfl rfl rfl rfl,
      ⟨⟨rfl, rfl, rfl, rfl⟩, ⟨rfl, rfl, rfl, rfl⟩, rfl, rfl⟩, rfl, rfl, rfl, rfl, rfl⟩
  rw [hu, hscaling, hone] at hready
  exact ⟨r, hstart, hready, hrest⟩

theorem kink_zeroFilled : kinkProblem.ZeroFilled := by
  rintro jac hjac x w A w' h
  obtain rfl := Option.some.inj hjac
  cases h

/-- From the start of this run the first trial is taken, and so no step is refused there. -/
theorem kink_descends :
    ∃ r, Run.start (standard : LevenbergMarquardt Exact).strategy kinkSetup () = .ok r ∧
      (∃ J A s v fu w t, Tries kinkSetup r J A s v fu w ∧ Descends kinkSetup r v fu ∧
        ((standard : LevenbergMarquardt Exact).verdict kinkSetup J A).eval s = (.ok true, t)) ∧
      ∃ N, ∀ n t, Refusals standard kinkSetup n r t → n ≤ N := by
  obtain ⟨r, hstart, hready, hgoing, hnone, hmethod, -⟩ := kink_starts
  obtain ⟨htrials, hends, hsolves⟩ := run_accepts_downhill ℝ standard kinkSetup () standard_reals
    standard_accepted standard_uphill one_pos rfl norm_not_neg Backend.standard_frames
    kink_zeroFilled hstart r .refl hgoing.error
  have hahead : kinkAt (-(1 / 2) + 3 / 4) = 3 / 2 := by norm_num [kinkAt]
  obtain ⟨J, A, s, v, fu, w, htries, -, -, hv, hfu, -⟩ := hready.tries (y := 3 / 4)
    (by rw [kinkSlope_left]; norm_num) (by rw [kinkSlope_left, kinkAt_left]; norm_num)
  have hturn : cosine v r.ext.velocity = real 0 := by
    rw [hnone]
    norm_num [cosine]
  have hdescends : Descends kinkSetup r v fu := by
    refine ⟨0, _, le_rfl, hturn, norm_kink hfu, ?_⟩
    rw [show kinkSetup.options.norm r.fu = _ from norm_kink hready.residual, hahead, kinkAt_left]
    exact real_le.2 le_rfl
  obtain ⟨taken, t, hverdict, -, -, htaken⟩ := htrials J A s v fu w htries
  obtain rfl := htaken hdescends
  have hfirst : ∀ {n t}, Refusals standard kinkSetup n r t → t = r := by
    rintro n t h
    cases h with
    | refl => rfl
    | more refused =>
      obtain ⟨J', A', s', v', fu', t', hstepped, -, htries', -⟩ := refused.tried rfl
      obtain ⟨s'', hrefused⟩ := hstepped.verdict
      cases htries.model.symm.trans htries'.model
      cases hverdict.symm.trans hrefused
  refine ⟨r, hstart, ⟨J, A, s, v, fu, w, t, htries, hdescends, hverdict⟩, ?_⟩
  refine hends 1 0 one_pos (fun n t h J' A' s' v' fu' w' htries' _ => ?_) ?_
  · obtain rfl := hfirst h
    obtain ⟨rfl, rfl, -⟩ := htries.unique htries'
    exact hdescends
  · refine hsolves (Backend.standard_eliminates ℝ) fun M hM => ?_
    rw [hmethod] at hM
    cases hM

/-- The first step goes over the kink to a residual of the same size, and is taken. -/
theorem kink_turns (hready : Ready (-(1 / 2)) 1 1 r) (hgoing : Going r)
    (hnone : r.ext.velocity = none) :
    ∃ t, (Run.step (standard : LevenbergMarquardt Exact).strategy kinkSetup).eval r =
      (.ok (), t) ∧ Turned (1 / 3) t := by
  have hpoint : -(1 / 2) + 3 / 4 = (1 / 4 : ℝ) := by norm_num
  obtain ⟨J, A, s, v, fu, t', t, -, -, hscaling, hv, hfu, hmethod, hstep, hstepped, rfl, hleaves,
    hgoing'⟩ := hready.goes true 0 (3 / 4) hgoing
      (by rw [kinkSlope_left]; norm_num) (by rw [kinkSlope_left, kinkAt_left]; norm_num)
      (fun v _ => by
        rw [hnone]
        norm_num [cosine])
      (by rw [hpoint, kinkAt_left, kinkAt_right]; norm_num)
  obtain ⟨gradient, velocity, hext⟩ := hstepped.ext
  have hmax : max 1 (kinkSlope (1 / 4) * kinkSlope (1 / 4)) = 4 := by norm_num [kinkSlope_right]
  have hnext : Ready (1 / 4) (max 1 (kinkSlope (1 / 4) * kinkSlope (1 / 4))) (1 / 3)
      (Run.recorded kinkSetup r.u t') := by
    refine .of_new ?_ ?_ ?_ ?_ ?_ ?_
    · rw [Run.recorded_ext, hext]
    · rw [hleaves.u, ← hpoint]
      exact hready.iterate.add hv
    · rw [hleaves.fu, ← hpoint]
      exact hfu
    · rw [Run.recorded_ext, hext]
      exact hscaling
    · have hdamping : s.ext.damping = real 1 := by
        rw [hstepped.modelled.ext, hready.damping]
      rw [Run.recorded_ext, hext]
      simp only [hdamping, if_true, standard_reals.decrease]
      norm_num [Exact.real_div]
    · rw [hmethod]
      rfl
  rw [hmax] at hnext
  exact ⟨_, hstep, hnext, hgoing', ⟨v, hv, hleaves.velocity⟩, le_rfl⟩

/-- A run with settings that are accepted can refuse trials downhill, and for ever, although all of
its trials go downhill: they turn back against the last step that was taken. -/
theorem kink_refused :
    (standard : LevenbergMarquardt Exact).refusal? = none ∧
      (standard : LevenbergMarquardt Exact).uphill = real 1 ∧
      (standard : LevenbergMarquardt Exact).geodesic.active = false ∧
      ∃ r₀ r, Run.start (standard : LevenbergMarquardt Exact).strategy kinkSetup () = .ok r₀ ∧
        Run.Leads (standard : LevenbergMarquardt Exact).strategy kinkSetup r₀ r ∧ r.isActive ∧
        RefusesDownhill r ∧
        ∀ n, ∃ t, Refusals standard kinkSetup n r t ∧ RefusesDownhill t := by
  obtain ⟨r₀, hstart, hready, hgoing, hnone, -, hactive, hsteps, hmaxiters⟩ := kink_starts
  obtain ⟨r, hstep, hturned⟩ := kink_turns hready hgoing hnone
  have hactive' : r.isActive := by
    obtain ⟨hcount, hlimit⟩ :=
      (((standard : LevenbergMarquardt Exact).proceeds kinkSetup).stepsTo hstep).count
    simp [Run.isActive, hturned.going.stopped, hcount, hlimit, hsteps, hmaxiters]
  exact ⟨standard_accepted, standard_uphill, rfl, r₀, r, hstart, .step .refl hactive hstep,
    hactive', hturned.refuses.1, hturned.refusals⟩

end Kink

end LevenbergMarquardt

end RootFinding
