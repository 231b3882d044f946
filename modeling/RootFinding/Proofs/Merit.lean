import Mathlib.Analysis.PSeries
import RootFinding.Proofs.Descent

/-!
# The merit of a spectral residual run

A single step may increase the merit, since it is compared with the largest of the last merits and
a tolerance is added. Still the merit stays within the first one and the tolerances of all steps
together: every merit in the ring obeys this bound, so the largest one does.

* `SpectralResidual.Took a c r t η`: what a step from `r` with the tolerance `η` has done.
* `SpectralResidual.Takes a c r₀ ηs r`: from `r₀` the run has got to `r` by steps with the
  tolerances `ηs`.
* `SpectralResidual.Within a c bound r`: the merit of a run and those in its ring are within a
  bound.
* `SpectralResidual.run_bounded`: the bound over a whole run. The standard rule keeps the merit
  below three times the first one.
-/

namespace RootFinding

open Action

namespace SpectralResidual

/-! ## Steps -/

section Steps

variable {σ R K : Type} [Scalar R] [Entry R K] {c : Setup σ R K}

/-- The merit of a residual. -/
def meritOf (a : SpectralResidual σ R K) (c : Setup σ R K) (fu : Vec K) : R :=
  merit a.exponent (c.options.norm fu)

/-- What the rule for the tolerance sees in the next step. -/
def context (r : Run σ R K (State R)) : StepContext R K :=
  { first := r.ext.first, step := r.steps + 1, u := r.u, fu := r.fu }

/-- The largest merit that is kept. -/
def State.largest (s : State R) : R := (Vec.maximum? (.ofList s.history)).getD s.first

/-- What a step from `r` with the tolerance `η` has done to the merits. -/
structure Took (a : SpectralResidual σ R K) (c : Setup σ R K) (r t : Run σ R K (State R))
    (η : R) : Prop where
  tolerance : ∃ w, (a.toleranceAt (context r)).eval r = (.ok η, w)
  accepted : ∃ part, a.meritOf c t.fu ≤
    r.ext.largest + η - a.decrease * Scalar.square part * a.meritOf c r.fu
  first : t.ext.first = r.ext.first
  history : t.ext.history = r.ext.history.set (r.steps % a.memory.toNat) (a.meritOf c t.fu)

theorem step_took (a : SpectralResidual σ R K) (r : Run σ R K (State R)) :
    (a.step c).Ends r (fun _ t => ∃ η, Took a c r t η) (fun _ _ => True) := by
  simp only [step, ends_bind, ends_get]
  refine ends_iff.2 ⟨fun η r₁ htolerance => ?_, fun _ _ _ => trivial⟩
  have h₁ : r₁.unworked = r.unworked := ((a.toleranceAt_keeps _).ends r).ok htolerance
  refine (a.trialAt_ends _ r₁).mono (fun x r₂ h₂ => ?_) (fun _ _ _ => trivial)
  refine (a.search_ends _ _ _ _ h₂.1 r₂).mono (fun x r₃ h₃ => ?_) (fun _ _ _ => trivial)
  rcases x with ⟨x, alpha⟩
  obtain ⟨⟨hx, part, haccepts⟩, h₃⟩ := h₃
  have hext : r₃.ext = r.ext :=
    congrArg (·.ext) (Run.eq_of_unworked (h₃.trans (h₂.2.trans h₁)))
  have hfirst : r₃.ext.first = r.ext.first := congrArg State.first hext
  have hhistory : r₃.ext.history = r.ext.history := congrArg State.history hext
  have hmerit : x.merit = a.meritOf c x.fu := hx.merit
  simp only [Run.ends_update, ends_modify, Run.ends_moveTo, ends_pure]
  refine (Run.check_frame _).mono (fun _ t ht => ?_) (fun _ _ _ => trivial)
  obtain ⟨checker, code, stopped, rfl⟩ := ht
  refine ⟨η, ⟨r₁, htolerance⟩, ⟨part, ?_⟩, hfirst, ?_⟩
  · have hle := of_decide_eq_true haccepts
    rw [hmerit] at hle
    exact hle
  · change r₃.ext.history.set _ x.merit = _
    rw [hhistory, hmerit]

/-- From `r₀` the run has got to the last argument by active steps that returned, with the given
tolerances in turn. -/
inductive Takes (a : SpectralResidual σ R K) (c : Setup σ R K) (r₀ : Run σ R K (State R)) :
    List R → Run σ R K (State R) → Prop
  | start : Takes a c r₀ [] r₀
  | headline {ηs : List R} {r : Run σ R K (State R)} (before : Takes a c r₀ ηs r) :
    Takes a c r₀ ηs (r.headed a.strategy)
  | step {ηs : List R} {r t : Run σ R K (State R)} {η : R} (before : Takes a c r₀ ηs r)
    (active : r.isActive) (stepped : (a.step c).eval r = (.ok (), t)) (took : Took a c r t η) :
    Takes a c r₀ (ηs ++ [η]) (Run.recorded c r.u t)

variable {a : SpectralResidual σ R K} {r r₀ t : Run σ R K (State R)} {ηs : List R}

/-- The steps are those of the loop. -/
theorem Takes.leads (h : Takes a c r₀ ηs r) : Run.Leads a.strategy c r₀ r := by
  induction h with
  | start => exact .refl
  | headline _ ih => exact ih.headline
  | step _ active stepped _ ih => exact ih.step active (Run.step_of_ok stepped)

/-- The steps of a run are those of its tolerances, and the first merit is kept. -/
theorem Takes.count (h : Takes a c r₀ ηs r) :
    r.steps = r₀.steps + ηs.length ∧ r.ext.first = r₀.ext.first := by
  induction h with
  | start => exact ⟨rfl, rfl⟩
  | headline _ ih => exact ih
  | step _ _ stepped took ih =>
    obtain ⟨b, tested⟩ := (a.proceeds c _).ok stepped
    rw [Run.recorded_steps, Run.recorded_ext, tested.steps_eq, took.first, ih.1, ih.2,
      List.length_append]
    exact ⟨rfl, rfl⟩

/-- A run that has not failed has taken its tolerances. -/
theorem takes_of_leads (h : Run.Leads a.strategy c r₀ r)
    (herror : r.error = none) : ∃ ηs, Takes a c r₀ ηs r := by
  induction h with
  | refl => exact ⟨[], .start⟩
  | headline _ ih =>
    obtain ⟨ηs, hηs⟩ := ih herror
    exact ⟨ηs, hηs.headline⟩
  | step _ active hstep ih =>
    obtain ⟨s, hs, rfl⟩ := Run.step_going hstep herror
    obtain ⟨b, tested⟩ := (a.proceeds c _).ok hs
    rw [Run.recorded_error, tested.error_eq] at herror
    obtain ⟨ηs, hηs⟩ := ih herror
    obtain ⟨η, took⟩ := (a.step_took _).ok hs
    exact ⟨ηs ++ [η], hηs.step active hs took⟩

/-- The largest merit is one of those that are kept, or the first one. -/
theorem State.largest_mem (s : State R) : s.largest ∈ s.first :: s.history := by
  unfold largest
  cases h : Vec.maximum? (.ofList s.history) with
  | none => exact List.mem_cons_self ..
  | some m => exact List.mem_cons_of_mem _ (Vec.maximum?_mem h)

end Steps

/-! ## Bounds -/

section Bounds

variable {σ K : Type} [Entry Exact K] {c : Setup σ Exact K} {a : SpectralResidual σ Exact K}
  {r r₀ t : Run σ Exact K (State Exact)} {bound η : Exact} {ηs : List Exact}

open Exact

/-- A merit is not negative. -/
theorem merit_nonneg {n p : Exact} (hn : ¬n < real 0) : real 0 ≤ merit p n := by
  unfold merit
  dsimp only
  split
  next hfinite =>
    obtain ⟨x, hx⟩ := isReal_iff.1 hfinite
    have hnonneg := not_neg_pow (b := p) hn
    rw [hx] at hnonneg ⊢
    exact not_neg_real.1 hnonneg
  next => trivial

theorem merit_defined (p x : Exact) : merit p x ≠ undefined := by
  unfold merit
  dsimp only
  split
  next h =>
    obtain ⟨y, hy⟩ := isReal_iff.1 h
    rw [hy]
    exact Exact.noConfusion
  · exact Exact.noConfusion

/-- The merit of a run, the first one and those in the ring are not negative and within a bound. -/
structure Within (a : SpectralResidual σ Exact K) (c : Setup σ Exact K) (bound : Exact)
    (r : Run σ Exact K (State Exact)) : Prop where
  merit : a.meritOf c r.fu ≤ bound
  kept : ∀ m ∈ r.ext.first :: r.ext.history, real 0 ≤ m ∧ m ≤ bound

omit [Entry Exact K] in
/-- A step raises the bound by its tolerance. -/
theorem Within.step (hdecrease : real 0 ≤ a.decrease) (hnorm : ∀ v, ¬c.options.norm v < real 0)
    (hr : Within a c bound r) (hη : real 0 ≤ η) (h : Took a c r t η) :
    Within a c (bound + η) t := by
  obtain ⟨part, haccepted⟩ := h.accepted
  have hlargest := hr.kept _ r.ext.largest_mem
  have hreduced : ¬a.decrease * Scalar.square part * a.meritOf c r.fu < real 0 :=
    not_neg_mul (not_neg_mul (not_neg_of_nonneg hdecrease) (not_neg_square part))
      (not_neg_of_nonneg (merit_nonneg (hnorm r.fu)))
  have hmerit : a.meritOf c t.fu ≤ bound + η :=
    Exact.le_trans (le_of_le_sub hreduced haccepted)
      (add_right_mono hlargest.1 hlargest.2 hη)
  have hraise : ∀ m, real 0 ≤ m ∧ m ≤ bound → real 0 ≤ m ∧ m ≤ bound + η := fun m hm =>
    ⟨hm.1, Exact.le_trans hm.2 (le_add_of_nonneg (Exact.le_trans hm.1 hm.2) hη)⟩
  refine ⟨hmerit, fun m hm => ?_⟩
  rw [h.first, h.history] at hm
  rcases List.mem_cons.1 hm with rfl | hm
  · exact hraise _ (hr.kept _ (List.mem_cons_self ..))
  · rcases List.mem_or_eq_of_mem_set hm with hold | rfl
    · exact hraise _ (hr.kept _ (List.mem_cons_of_mem _ hold))
    · exact ⟨merit_nonneg (hnorm t.fu), hmerit⟩

/-- The bound of a run is that of its start with its tolerances added. -/
theorem Within.takes (hdecrease : real 0 ≤ a.decrease) (hnorm : ∀ v, ¬c.options.norm v < real 0)
    (hr : Within a c bound r₀) (h : Takes a c r₀ ηs r) (hηs : ∀ η ∈ ηs, real 0 ≤ η) :
    Within a c (ηs.foldl (· + ·) bound) r := by
  induction h with
  | start => exact hr
  | headline _ ih => exact ⟨(ih hηs).merit, (ih hηs).kept⟩
  | @step ηs r t η _ _ _ took ih =>
    have hbefore := ih fun η hη => hηs η (List.mem_append_left _ hη)
    have hη : real 0 ≤ η := hηs η (List.mem_append_right _ (List.mem_singleton_self η))
    have hafter := hbefore.step hdecrease hnorm hη took
    rw [List.foldl_append]
    exact ⟨by rw [Run.recorded_fu]; exact hafter.merit,
      by rw [Run.recorded_ext]; exact hafter.kept⟩

theorem Within.of_start {world : σ} (hnorm : ∀ v, ¬c.options.norm v < real 0)
    (h : Run.start a.strategy c world = .ok r) (hfinite : (a.meritOf c r.fu).isReal) :
    Within a c (a.meritOf c r.fu) r := by
  have hprepared := start_ok (Run.start_prepared h)
  have hself : a.meritOf c r.fu ≤ a.meritOf c r.fu := by
    obtain ⟨x, hx⟩ := isReal_iff.1 hfinite
    rw [hx]
    exact le_refl x
  refine ⟨hself, fun m hm => ?_⟩
  have hm : m = a.meritOf c r.fu := by
    rcases List.mem_cons.1 hm with rfl | hm
    · exact hprepared.first
    · rw [hprepared.history] at hm
      exact List.eq_of_mem_replicate hm
  rw [hm]
  exact ⟨merit_nonneg (hnorm r.fu), hself⟩

/-! ### The standard rule -/

omit [Entry Exact K] in
theorem toleranceAt_standard (ha : a.tolerance = none) (x : StepContext Exact K)
    (r : Run σ Exact K (State Exact)) :
    (a.toleranceAt x).eval r = (.ok x.standardTolerance, r) := by
  unfold toleranceAt
  rw [ha]
  rfl

/-- The tolerances of the standard rule are the first merit over the squares of the numbers of the
steps. -/
theorem Takes.standard {first : ℝ} (ha : a.tolerance = none) (hpositive : 0 ≤ first)
    (hsteps : r₀.steps = 0) (hfirst : r₀.ext.first = real first) (h : Takes a c r₀ ηs r) :
    (∀ η ∈ ηs, real 0 ≤ η) ∧ ηs.foldl (· + ·) (real first) =
      real (first * (1 + ∑ j ∈ Finset.Icc 1 ηs.length, 1 / (j : ℝ) ^ 2)) := by
  induction h with
  | start => simp
  | headline _ ih => exact ih
  | @step ηs r t η before _ _ took ih =>
    obtain ⟨hnonneg, hsum⟩ := ih
    obtain ⟨hcount, hkept⟩ := before.count
    obtain ⟨w, htolerance⟩ := took.tolerance
    rw [toleranceAt_standard ha, Prod.mk.injEq, Except.ok.injEq] at htolerance
    have hη : η = real (first * (1 / ((ηs.length + 1 : ℕ) : ℝ) ^ 2)) := by
      have hne : (((ηs.length + 1) * (ηs.length + 1) : ℕ) : ℝ) ≠ 0 :=
        Nat.cast_ne_zero.2 (by positivity)
      rw [← htolerance.1, StepContext.standardTolerance, context, hkept, hfirst, hcount, hsteps,
        Nat.zero_add]
      refine (real_div hne).trans (congrArg real ?_)
      rw [Nat.cast_mul, ← pow_two]
      ring
    constructor
    · intro η' hη'
      rcases List.mem_append.1 hη' with hmem | hmem
      · exact hnonneg η' hmem
      · rw [List.mem_singleton.1 hmem, hη, real_le]
        positivity
    · rw [List.foldl_append, hsum, hη, List.length_append, List.length_singleton,
        Finset.sum_Icc_succ_top (by omega)]
      refine congrArg real ?_
      ring

/-- The squares of the reciprocals of whole numbers add up to less than two. -/
theorem sum_reciprocal_squares_lt (n : ℕ) : ∑ j ∈ Finset.Icc 1 n, 1 / (j : ℝ) ^ 2 < 2 := by
  have hle : ∑ j ∈ Finset.Icc 1 (n + 1), 1 / (j : ℝ) ^ 2 ≤ 2 := by
    have hbound := sum_Ioo_inv_sq_le (α := ℝ) 0 (n + 2)
    have hset : Finset.Ioo 0 (n + 2) = Finset.Icc 1 (n + 1) := by
      ext j
      simp only [Finset.mem_Ioo, Finset.mem_Icc]
      omega
    rw [hset] at hbound
    simpa using hbound
  rw [Finset.sum_Icc_succ_top (by omega)] at hle
  have hlast : 0 < 1 / ((n + 1 : ℕ) : ℝ) ^ 2 := by positivity
  linarith

/-- **The merit stays bounded.**  In exact arithmetic, with a norm that is not negative and a
finite first merit: wherever a run gets without a failure it has taken some tolerances, one in each
step. If none of them is negative, the merit is at most the first one with all of them added. With
the standard rule this is the first merit times one and the sum of the reciprocal squares, which is
less than three times the first merit. -/
theorem run_bounded (a : SpectralResidual σ Exact K) (c : Setup σ Exact K) (world : σ)
    (hdecrease : 0.0 ≤ a.decrease) (hnorm : ∀ v, ¬c.options.norm v < 0.0)
    {r₀ : Run σ Exact K (State Exact)} (hstart : Run.start a.strategy c world = .ok r₀)
    {first : ℝ} (hfirst : a.meritOf c r₀.fu = real first) :
    (∀ r, Run.Leads a.strategy c r₀ r → r.error = none →
      ∃ ηs, Takes a c r₀ ηs r ∧ ηs.length = r.steps) ∧
    (∀ ηs r, Takes a c r₀ ηs r → (∀ η ∈ ηs, 0.0 ≤ η) →
      a.meritOf c r.fu ≤ ηs.foldl (· + ·) (real first)) ∧
    (a.tolerance = none → ∀ r, Run.Leads a.strategy c r₀ r → r.error = none →
      ∃ f, a.meritOf c r.fu = real f ∧ 0 ≤ f ∧
        f ≤ first * (1 + ∑ j ∈ Finset.Icc 1 r.steps, 1 / (j : ℝ) ^ 2) ∧
        (0 < first → f < 3 * first)) := by
  have hzero : (0.0 : Exact) = real 0 := by norm_num
  rw [hzero] at hdecrease hnorm ⊢
  have hwithin : Within a c (real first) r₀ := by
    rw [← hfirst]
    exact .of_start hnorm hstart (by rw [hfirst]; rfl)
  have hsteps : r₀.steps = 0 := Run.start_steps hstart
  have htaken : ∀ r, Run.Leads a.strategy c r₀ r → r.error = none →
      ∃ ηs, Takes a c r₀ ηs r ∧ ηs.length = r.steps := fun r hr herror => by
    obtain ⟨ηs, hηs⟩ := takes_of_leads hr herror
    exact ⟨ηs, hηs, by rw [hηs.count.1, hsteps, Nat.zero_add]⟩
  have hbound : ∀ ηs r, Takes a c r₀ ηs r → (∀ η ∈ ηs, real 0 ≤ η) →
      a.meritOf c r.fu ≤ ηs.foldl (· + ·) (real first) := fun ηs r hr hηs =>
    (hwithin.takes hdecrease hnorm hr hηs).merit
  refine ⟨htaken, hbound, fun ha r hr herror => ?_⟩
  obtain ⟨ηs, hηs, hlength⟩ := htaken r hr herror
  have hpositive : 0 ≤ first := by
    have hmerit : real 0 ≤ a.meritOf c r₀.fu := merit_nonneg (hnorm r₀.fu)
    rwa [hfirst, real_le] at hmerit
  have hkept : r₀.ext.first = real first :=
    (start_ok (Run.start_prepared hstart)).first.trans hfirst
  obtain ⟨hnonneg, hsum⟩ := hηs.standard ha hpositive hsteps hkept
  have hle := hbound ηs r hηs hnonneg
  rw [hsum, hlength] at hle
  obtain ⟨f, hf, hfle, hmerit⟩ :=
    exists_real_of_le_of_le (merit_nonneg (hnorm r.fu) : real 0 ≤ a.meritOf c r.fu) hle
  refine ⟨f, hmerit, hf, hfle, fun hfirst => ?_⟩
  calc f ≤ first * (1 + ∑ j ∈ Finset.Icc 1 r.steps, 1 / (j : ℝ) ^ 2) := hfle
    _ < first * (1 + 2) := by
      have hlt := sum_reciprocal_squares_lt r.steps
      gcongr
    _ = 3 * first := by ring

/-- The merit of a real norm is real, for an exponent that is not negative. -/
theorem merit_real {x y : ℝ} (hx : 0 ≤ x) (hy : 0 ≤ y) :
    merit (real y) (real x) = real (x ^ y) := by
  have hpow : Scalar.pow (real x) (real y) = real (x ^ y) :=
    if_pos (hx.lt_or_eq.imp_right fun h => ⟨h.symm, hy⟩)
  unfold merit
  rw [hpow]
  rfl

end Bounds

section Identity

open Exact TrustRegion

theorem identity_bounded :
    (0.0 : Exact) ≤ (standard : SpectralResidual Unit Exact Exact).decrease ∧
      (∀ v, ¬identitySetup.options.norm v < 0.0) ∧
      ∃ r₀ first, Run.start standard.strategy identitySetup () = .ok r₀ ∧
        standard.meritOf identitySetup r₀.fu = real first ∧
        ∀ r, Run.Leads standard.strategy identitySetup r₀ r → r.error = none →
          ∃ f, standard.meritOf identitySetup r.fu = real f ∧ 0 ≤ f ∧
            f ≤ first * (1 + ∑ j ∈ Finset.Icc 1 r.steps, 1 / (j : ℝ) ^ 2) ∧
            (0 < first → f < 3 * first) := by
  have hdecrease : (0.0 : Exact) ≤ (standard : SpectralResidual Unit Exact Exact).decrease := by
    change (0.0 : ℝ) ≤ 1e-4
    norm_num
  have hnorm : ∀ v, ¬identitySetup.options.norm v < 0.0 := fun v => by
    have hzero : (0.0 : Exact) = real 0 := by norm_num
    rw [hzero]
    exact norm_not_neg v
  obtain ⟨x, hx, hnormed⟩ := norm_real (v := .ofList [real 1]) rfl
  have hfirst : standard.meritOf identitySetup (.ofList [real 1]) = real (x ^ (2.0 : ℝ)) := by
    have hmerit : merit (real 2.0) (real x) = real (x ^ (2.0 : ℝ)) := merit_real hx (by norm_num)
    rw [← hnormed] at hmerit
    exact hmerit
  exact ⟨hdecrease, hnorm, _, _, rfl, hfirst,
    (run_bounded standard identitySetup () hdecrease hnorm rfl hfirst).2.2 rfl⟩

end Identity

end SpectralResidual

end RootFinding
