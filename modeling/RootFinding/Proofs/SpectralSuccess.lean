import Mathlib.Analysis.SpecialFunctions.Pow.Continuity
import Mathlib.Analysis.SpecificLimits.Basic
import RootFinding.Proofs.Rollback
import RootFinding.Proofs.SpectralCoefficient

/-!
# Searches that succeed

A spectral residual step finds a trial where the residual is continuous, if its search has enough
rounds. The present merit is one of those that are kept, so it is at most the largest of them; with
a positive tolerance it is strictly below what a trial is allowed; and the parts of the step that
are tried get as small as wanted.

* `SpectralResidual.Current`: what a run keeps besides its sizes. The present merit is kept, and the
  coefficient is a real number.
* `Problem.ContinuesAt`, `ContinuousNorm`: what is asked of the residual and of the norm.
* `SpectralResidual.eventually_accepts`: all trials at small parts of the step are accepted.
* `SpectralResidual.search_succeeds`: there is a number of rounds from which on the step is not
  stalled by its search.
* `SpectralResidual.flat_stalls`: a step that is stalled by its check all the same.
-/

namespace RootFinding

open Action Exact Filter Topology

/-! ## Sizes of entries -/

/-- Entries whose size is a real number only if they are finite. -/
class ExactSize (K : Type) [Entry Exact K] : Prop where
  isFinite_of_abs {z : K} {x : ℝ} : Entry.abs z ≤ real x → Entry.isFinite z = true

instance : ExactSize Exact where
  isFinite_of_abs {z x} h := by
    cases z with
    | real y => rfl
    | posInf | negInf | undefined => exact h.elim

instance : ExactSize ExactComplex where
  isFinite_of_abs {z x} h := by
    have hsize : IsSize (Entry.abs z) (Entry.isFinite z) := (isSize_normSq z).sqrt
    cases hz : Entry.isFinite z with
    | true => rfl
    | false =>
      rw [hz] at hsize
      rcases hsize with hinf | hundefined
      · rw [hinf] at h
        exact h.elim
      · rw [hundefined] at h
        exact h.elim

/-! ## Continuity -/

section Continuity

variable {σ 𝕜 K : Type} [RCLike 𝕜] [Entry Exact K] [ExactEntry 𝕜 K] {n : Nat}

/-- The residual is a function `F` that answers at all vectors of the right size. Near the numbers
`x` it is the function `g` of numbers, which is continuous there. -/
structure Problem.ContinuesAt (p : Problem σ Exact K) (F : Vec K → Vec K)
    (g : (Fin n → 𝕜) → Fin n → 𝕜) (x : Fin n → 𝕜) : Prop where
  answers : ∀ u w, u.size = Tensor.sizeOf p.guess.shape → ((p.evaluate u).eval w).1 = .ok (F u)
  reads : ∀ᶠ y in 𝓝 x, ∀ v : Vec K, v.Reads y → (F v).Reads (g y)
  continuousAt : ContinuousAt g x

/-- A norm of vectors that is a continuous function of their numbers. -/
structure ContinuousNorm (norm : Vec K → Exact) (N : (Fin n → 𝕜) → ℝ) : Prop where
  reads : ∀ (v : Vec K) y, v.Reads y → norm v = real (N y)
  nonneg : ∀ y, 0 ≤ N y
  continuous : Continuous N

theorem Problem.ContinuesAt.eq_of_answered {p : Problem σ Exact K} {F : Vec K → Vec K}
    {g : (Fin n → 𝕜) → Fin n → 𝕜} {x : Fin n → 𝕜} (hF : p.ContinuesAt F g x) {u fu : Vec K}
    (h : p.Answered u fu) : fu = F u := by
  have hsize := h.size_eq
  obtain ⟨w, w', h⟩ := h
  have hanswer := hF.answers u w hsize
  rw [h] at hanswer
  exact Except.ok.inj hanswer

/-- The euclidean norm is continuous. -/
theorem continuousNorm_norm [ExactParts 𝕜 K] :
    ContinuousNorm (Vec.norm : Vec K → Exact) fun y : Fin n → 𝕜 => euclidean (List.ofFn y) where
  reads v y hv := by rw [hv, Vec.norm_numbers]
  nonneg y := euclidean_nonneg _
  continuous := by
    simp only [euclidean, List.map_ofFn, List.sum_ofFn]
    fun_prop

end Continuity

/-! ## Checks -/

section Checks

variable {σ R K X : Type} [Scalar R] [Entry R K]

/-- A check fails as stalled in the safe modes only. -/
theorem Checker.check_stalls (k : Checker R K) (fu u previous : Vec K) :
    (Checker.check fu u previous).Ends k (fun _ _ => True)
      (fun e _ => ∀ f, e = .failure f → f.kind = .stall → k.isSafe = true) := by
  cases hsafe : k.isSafe with
  | true => exact ends_true.mono (fun _ _ _ => trivial) (fun _ _ _ _ _ _ => rfl)
  | false =>
    simp only [Checker.check, ends_bind, ends_get]
    split
    · simp only [ends_bind, ends_ofFault, ends_fail]
      refine ⟨fun step _ f hf hkind => ?_, fun e _ f hf => ?_⟩
      · cases hf
        cases hkind
      · cases hf
    · simp only [ends_bind, ends_set]
      split
      · exact ends_ofFault.2 ⟨fun _ _ => trivial, fun _ _ f hf => by cases hf⟩
      · exact ends_ofFault.2 ⟨fun _ _ => trivial, fun _ _ f hf => by cases hf⟩
      · simp only [ends_bind, ends_ofFault, hsafe, Bool.false_eq_true, if_false]
        refine ⟨fun bound _ => ?_, fun _ _ f hf => by cases hf⟩
        split <;> trivial

theorem Run.check_stalls (r : Run σ R K X) :
    (Run.check : Stepping σ R K X Bool).Ends r (fun _ _ => True)
      (fun e _ => ∀ f, e = .failure f → f.kind = .stall → r.checker.isSafe = true) := by
  simp only [Run.check, ends_bind, ends_get, ends_within]
  refine (r.checker.check_stalls _ _ _).mono (fun b k _ => ?_) (fun _ _ h => h)
  split <;> trivial

end Checks

namespace SpectralResidual

section Success

variable {σ K : Type} [Entry Exact K] {c : Setup σ Exact K} {a : SpectralResidual σ Exact K}
  {lo hi : ℝ} {r r₀ t : Run σ Exact K (State Exact)}

/-! ## What a run keeps -/

/-- What holds wherever a run gets without a failure: the present merit is kept, all merits that are
kept are numbers, and so is the coefficient. -/
structure Current (a : SpectralResidual σ Exact K) (c : Setup σ Exact K)
    (r : Run σ Exact K (State Exact)) : Prop where
  answered : c.problem.Answered r.u r.fu
  merit : a.meritOf c r.fu ∈ r.ext.history
  defined : ∀ m ∈ r.ext.history, m ≠ undefined
  length : r.ext.history.length = a.memory.toNat
  spectral : ∃ x, r.ext.spectral = real x

theorem Current.of_eq (hr : Current a c r) (hu : t.u = r.u) (hfu : t.fu = r.fu)
    (hext : t.ext = r.ext) : Current a c t :=
  ⟨by rw [hu, hfu]; exact hr.answered, by rw [hfu, hext]; exact hr.merit,
    by rw [hext]; exact hr.defined, by rw [hext]; exact hr.length,
    by rw [hext]; exact hr.spectral⟩

theorem Adapted.real [ExactSize K] {s y : Vec K} {spectral : Exact} (h : Adapted a s y spectral)
    (hlargest : a.largest.isReal) : ∃ x, spectral = Exact.real x := by
  cases h with
  | within _ largest eq =>
    obtain ⟨L, hL⟩ := isReal_iff.1 hlargest
    rw [hL] at largest
    have hfinite := ExactSize.isFinite_of_abs largest
    obtain ⟨x, hx⟩ := isReal_iff.1 (Bool.and_eq_true_iff.1 hfinite).1
    exact ⟨x, eq.trans hx⟩
  | replaced _ eq =>
    obtain ⟨x, -, -, hx⟩ := fitting_range y.norm
    exact ⟨x, eq.trans hx⟩

theorem Current.step [ExactSize K] (hmemory : 1 ≤ a.memory) (hlargest : a.largest.isReal)
    (hr : Current a c r) :
    (a.step c).Ends r (fun _ t => Current a c t) (fun _ _ => True) := by
  have hspectral := a.step_adapted c r
  refine ends_iff.2 ⟨fun _ t ht => ?_, fun _ _ _ => trivial⟩
  have hadapted := hspectral.ok ht
  rw [step_parts] at ht
  obtain ⟨⟨⟩, s, happroach, ht⟩ := eval_bind_ok.1 ht
  obtain ⟨b, s', hcheck, ht⟩ := eval_bind_ok.1 ht
  cases ht
  obtain ⟨checker, code, stopped, rfl⟩ := (Run.check_frame s).ok hcheck
  obtain ⟨x, s, hx, hs, rfl⟩ := (a.approach_lands r).ok happroach
  have hext : s.ext = r.ext := congrArg (·.ext) (Run.eq_of_unworked hs)
  have hmerit : x.1.merit = a.meritOf c x.1.fu := hx.merit
  have hplace : r.steps % a.memory.toNat < r.ext.history.length := by
    rw [hr.length]
    exact Nat.mod_lt _ (by omega)
  have hhistory : (a.landed r x s).ext.history =
      r.ext.history.set (r.steps % a.memory.toNat) (a.meritOf c x.1.fu) := by
    rw [← hmerit, ← hext]
    rfl
  refine ⟨hx.answered, ?_, fun m hm => ?_, ?_, hadapted.real hlargest⟩
  · change _ ∈ (a.landed r x s).ext.history
    rw [hhistory]
    exact List.mem_set hplace _
  · have hm : m ∈ (a.landed r x s).ext.history := hm
    rw [hhistory] at hm
    rcases List.mem_or_eq_of_mem_set hm with hold | rfl
    · exact hr.defined m hold
    · exact merit_defined _ _
  · change (a.landed r x s).ext.history.length = _
    rw [hhistory, List.length_set, hr.length]

theorem Current.of_start {world : σ} (hmemory : 1 ≤ a.memory) (hfirst : a.first.isReal)
    (h : Run.start a.strategy c world = .ok r) : Current a c r := by
  have hprepared := start_ok (Run.start_prepared h)
  have hhistory : r.ext.history = List.replicate a.memory.toNat (a.meritOf c r.fu) :=
    hprepared.history
  obtain ⟨x, hx⟩ := isReal_iff.1 hfirst
  refine ⟨Run.start_answered h, ?_, fun m hm => ?_, ?_, x, hprepared.spectral.trans hx⟩
  · rw [hhistory]
    exact List.mem_replicate.2 ⟨by omega, rfl⟩
  · rw [hhistory] at hm
    rw [List.eq_of_mem_replicate hm]
    exact merit_defined _ _
  · rw [hhistory, List.length_replicate]

/-- Wherever a run gets without a failure, its merit is kept and its coefficient is a number. -/
theorem Current.of_leads [ExactSize K] {world : σ} (hmemory : 1 ≤ a.memory)
    (hfirst : a.first.isReal) (hlargest : a.largest.isReal)
    (hstart : Run.start a.strategy c world = .ok r₀) (h : Run.Leads a.strategy c r₀ r)
    (herror : r.error = none) : Current a c r := by
  induction h with
  | refl => exact .of_start hmemory hfirst hstart
  | headline _ ih => exact (ih herror).of_eq rfl rfl rfl
  | step _ _ hstep ih =>
    obtain ⟨s, hs, rfl⟩ := Run.step_going hstep herror
    obtain ⟨b, tested⟩ := (a.proceeds c _).ok hs
    rw [Run.recorded_error, tested.error_eq] at herror
    exact (((ih herror).step hmemory hlargest).ok hs).of_eq (Run.recorded_u _ _ _)
      (Run.recorded_fu _ _ _) (Run.recorded_ext _ _ _)

/-- The sizes of a run at numbers are those of the problem. -/
theorem Current.ready {𝕜 : Type} [RCLike 𝕜] [ExactEntry 𝕜 K] {n : Nat} {x g : Fin n → 𝕜}
    (hr : Current a c r) (hu : r.u.Reads x) (hfu : r.fu.Reads g) : Ready c r where
  u := hr.answered.size_eq
  fu := by rw [hfu.size, ← hu.size]; exact hr.answered.size_eq
  history := List.ne_nil_of_mem hr.merit
  defined := hr.defined

/-! ## Trials at small parts of a step -/

/-- A positive tolerance leaves room above the merits that are kept. -/
theorem exists_room {old : ℝ} {top η : Exact} (htop : real old ≤ top) (hη : 0.0 < η) :
    ∃ b, old < b ∧ real b ≤ top + η := by
  norm_num at hη
  cases top with
  | real y =>
    cases η with
    | real e => exact ⟨y + e, lt_add_of_le_of_pos htop hη, le_rfl (α := ℝ)⟩
    | posInf => exact ⟨old + 1, lt_add_one old, trivial⟩
    | negInf | undefined => exact hη.elim
  | posInf =>
    cases η with
    | real e => exact ⟨old + 1, lt_add_one old, trivial⟩
    | posInf => exact ⟨old + 1, lt_add_one old, trivial⟩
    | negInf | undefined => exact hη.elim
  | negInf | undefined => exact htop.elim

/-- What is less than a number below a limit is within the limit. -/
theorem le_limit_sub {b m z : ℝ} {limit : Exact} (hlimit : real b ≤ limit) (h : m + z ≤ b) :
    real m ≤ limit - real z := by
  cases limit with
  | real y => exact le_sub_iff_add_le.2 (h.trans hlimit)
  | posInf => trivial
  | negInf | undefined => exact hlimit.elim

variable {𝕜 : Type} [RCLike 𝕜] [ExactEntry 𝕜 K] {n : Nat}

/-- The numbers at the parts of a step from `x`. -/
def along (x d : Fin n → 𝕜) (spectral part : ℝ) : Fin n → 𝕜 :=
  fun j => x j - ((part * spectral : ℝ) : 𝕜) * d j

omit [Entry Exact K] [ExactEntry 𝕜 K] in
theorem tendsto_along (x d : Fin n → 𝕜) (spectral : ℝ) :
    Tendsto (along x d spectral) (𝓝 0) (𝓝 x) := by
  have hcontinuous : Continuous (along x d spectral) := by
    refine continuous_pi fun j => continuous_const.sub (Continuous.mul ?_ continuous_const)
    exact RCLike.continuous_ofReal.comp (continuous_id.mul continuous_const)
  have hstart : along x d spectral 0 = x := by
    funext j
    simp [along]
  have htendsto := hcontinuous.tendsto 0
  rwa [hstart] at htendsto

variable {F : Vec K → Vec K} {g : (Fin n → 𝕜) → Fin n → 𝕜} {x : Fin n → 𝕜}
  {N : (Fin n → 𝕜) → ℝ} {p γ : ℝ} {η : Exact}

theorem Current.reads (hr : Current a c r) (hF : c.problem.ContinuesAt F g x)
    (hu : r.u.Reads x) : r.fu.Reads (g x) := by
  rw [hF.eq_of_answered hr.answered]
  exact hF.reads.self_of_nhds r.u hu

/-- The merit at numbers. -/
theorem meritOf_reads (hnorm : ContinuousNorm c.options.norm N) (hexponent : a.exponent = real p)
    (hp : 0 ≤ p) {v : Vec K} {y : Fin n → 𝕜} (hv : v.Reads y) :
    a.meritOf c v = real (N y ^ p) := by
  rw [meritOf, hexponent, hnorm.reads v y hv, merit_real (hnorm.nonneg y) hp]

/-- All trials at small parts of a step are accepted: the merit is continuous along the step, and
there is room above the present one. -/
theorem eventually_accepts (hF : c.problem.ContinuesAt F g x)
    (hnorm : ContinuousNorm c.options.norm N) (hexponent : a.exponent = real p) (hp : 0 ≤ p)
    (hdecrease : a.decrease = real γ) (hr : Current a c r) (hu : r.u.Reads x) (hη : 0.0 < η) :
    ∀ᶠ part in 𝓝 (0 : ℝ), ∀ t : Trial Exact K, t.Stands a c →
      t.u = (searchFrom a c r η).u + real part • (searchFrom a c r η).d →
        t.merit ≤ (searchFrom a c r η).limit -
          a.decrease * real (part * part) * (searchFrom a c r η).old := by
  have hfu : r.fu.Reads (g x) := hr.reads hF hu
  obtain ⟨s, hs⟩ := hr.spectral
  have hold : a.meritOf c r.fu = real (N (g x) ^ p) := meritOf_reads hnorm hexponent hp hfu
  have htop : real (N (g x) ^ p) ≤ r.ext.largest :=
    hold ▸ (hr.ready hu hfu).largest.2 _ hr.merit
  obtain ⟨b, hb, hlimit⟩ := exists_room htop hη
  have htendsto := tendsto_along x (g x) s
  have hmerit : Tendsto (fun part => N (g (along x (g x) s part)) ^ p +
      γ * (part * part) * N (g x) ^ p) (𝓝 0) (𝓝 (N (g x) ^ p + γ * (0 * 0) * N (g x) ^ p)) := by
    have hnormed := (hnorm.continuous.tendsto (g x)).comp (hF.continuousAt.tendsto.comp htendsto)
    refine (hnormed.rpow_const (.inr hp)).add (Tendsto.mul_const _ (Tendsto.const_mul _ ?_))
    exact tendsto_id.mul tendsto_id
  have hbelow := hmerit.eventually_lt_const (u := b) (by simpa using hb)
  filter_upwards [htendsto.eventually hF.reads, hbelow] with part hreads hlt t ht hplace
  have htu : t.u.Reads (along x (g x) s part) := by
    rw [hplace]
    exact reads_ahead hu hfu hs part
  have htfu : t.fu.Reads (g (along x (g x) s part)) := by
    rw [hF.eq_of_answered ht.answered]
    exact hreads t.u htu
  have htmerit : t.merit = real (N (g (along x (g x) s part)) ^ p) :=
    ht.merit.trans (meritOf_reads hnorm hexponent hp htfu)
  change t.merit ≤ r.ext.largest + η - a.decrease * real (part * part) * a.meritOf c r.fu
  rw [htmerit, hold, hdecrease, real_mul, real_mul]
  exact le_limit_sub hlimit hlt.le

/-- The method with the given number of rounds in a search. -/
def withRounds (a : SpectralResidual σ Exact K) (m : Int) : SpectralResidual σ Exact K :=
  { a with innerLimit := m }

/-- With enough rounds a search ends with a trial that is accepted. -/
theorem Current.approach_succeeds (ha : a.Accepted lo hi) (hF : c.problem.ContinuesAt F g x)
    (hnorm : ContinuousNorm c.options.norm N) (hexponent : a.exponent = real p) (hp : 0 ≤ p)
    (hdecrease : a.decrease = real γ) (hr : Current a c r) (hu : r.u.Reads x)
    {w : Run σ Exact K (State Exact)}
    (htolerance : (a.toleranceAt (context r)).eval r = (.ok η, w)) (hη : 0.0 < η) :
    ∃ limit : Int, ∀ m ≥ limit, ((a.withRounds m).approach c).Ends r
      (fun _ t => ∃ i part, Settled (a.withRounds m) c r lo hi η i part t)
      (fun _ _ => False) := by
  have hfu : r.fu.Reads (g x) := hr.reads hF hu
  have haccepts := eventually_accepts hF hnorm hexponent hp hdecrease hr hu hη
  obtain ⟨δ, hδ, haccepts⟩ := Metric.eventually_nhds_iff.1 haccepts
  obtain ⟨k, hk⟩ := exists_pow_lt_of_lt_one hδ ha.lt_one
  refine ⟨k + 1, fun m hm => ?_⟩
  have hm' : 1 ≤ m := by omega
  have hround : k < m.toNat := by omega
  have hb : Accepted (a.withRounds m) lo hi :=
    ⟨ha.reduceMost, ha.reduceLeast, ha.pos, ha.le, ha.lt_one, ha.memory, hm'⟩
  have hold : (a.withRounds m).meritOf c r.fu = real (N (g x) ^ p) :=
    meritOf_reads hnorm hexponent hp hfu
  have hsame {η' : Exact} {w' : Run σ Exact K (State Exact)}
      (h : ((a.withRounds m).toleranceAt (context r)).eval r = (.ok η', w')) : η' = η := by
    have h : (a.toleranceAt (context r)).eval r = (.ok η', w') := h
    rw [htolerance] at h
    cases h
    rfl
  refine (hb.approach_settles (hr.ready hu hfu) hold).mono (fun _ t ht => ?_) (fun e t ht => ?_)
  · obtain ⟨η', i, part, hsettled⟩ := ht
    obtain ⟨w', hw'⟩ := hsettled.tolerance
    exact ⟨i, part, hsame hw' ▸ hsettled⟩
  · obtain ⟨-, hinterrupted | ⟨-, -, η', ⟨w', hw'⟩, hrefused⟩⟩ := ht
    · exact not_interrupted (a := a.withRounds m) (fun u w hu => ⟨F u, hF.answers u w hu⟩)
        htolerance hinterrupted
    · obtain rfl := hsame hw'
      -- in the last round the parts are so small that the trial ahead is accepted
      obtain ⟨part, t, hpart, ht, hplace, hrefused⟩ := hrefused k hround
      have hpos := ha.pos_of_isPart hpart
      have hnear : dist part 0 < δ := by
        rw [Real.dist_0_eq_abs, abs_of_pos hpos]
        exact hpart.2.trans_lt hk
      exact hrefused (haccepts hnear t ⟨ht.answered, ht.merit⟩ hplace)

omit [Entry Exact K] in
/-- The standard rule gives positive tolerances when the first residual is not zero. -/
theorem standardTolerance_pos {first : ℝ} (hfirst : r.ext.first = real first) (hpos : 0 < first) :
    0.0 < (context r).standardTolerance := by
  have hcount : (0 : ℝ) < ((r.steps + 1) * (r.steps + 1) : ℕ) := Nat.cast_pos.2 (by positivity)
  have hdiv : (context r).standardTolerance =
      real (first / ((r.steps + 1) * (r.steps + 1) : ℕ)) := by
    rw [StepContext.standardTolerance, context, hfirst]
    exact real_div hcount.ne'
  have hzero : (0.0 : Exact) = real 0 := by norm_num
  rw [hdiv, hzero, real_lt]
  exact div_pos hpos hcount

/-- **A search succeeds with enough rounds.**  Take settings that are not refused and are numbers,
and a run that has got to the numbers `x` without a failure, where the residual is continuous. If
the tolerance of the step is positive, there is a number of rounds from which on the search always
accepts a trial, so the step comes to its check, and is not stalled unless by the check of a safe
mode. The standard rule gives a positive tolerance when the first residual is not zero. -/
theorem search_succeeds [ExactSize K] (ha : a.refusal? = none) (hfirst : a.first.isReal)
    (hlargest : a.largest.isReal) (hdecrease : a.decrease.isReal) (hexponent : a.exponent = real p)
    (hp : 0 ≤ p) {world : σ} (hstart : Run.start a.strategy c world = .ok r₀)
    (hr : Run.Leads a.strategy c r₀ r) (herror : r.error = none) (hu : r.u.Reads x)
    (hF : c.problem.ContinuesAt F g x) (hnorm : ContinuousNorm c.options.norm N) :
    (∀ η w, (a.toleranceAt (context r)).eval r = (.ok η, w) → 0.0 < η →
      ∃ lo hi, a.reduceMost = real lo ∧ a.reduceLeast = real hi ∧
        ∃ limit : Int, ∀ m ≥ limit,
          ((a.withRounds m).approach c).Ends r
            (fun _ t => ∃ i part, Settled (a.withRounds m) c r lo hi η i part t)
            (fun _ _ => False) ∧
          ((a.withRounds m).step c).Ends r
            (fun _ t => ∃ i part, Settled (a.withRounds m) c r lo hi η i part t)
            (fun (e : Thrown Exact K) _ => ∀ f, e = .failure f → f.kind = .stall →
              c.options.termination.mode.isSafe = true)) ∧
    (a.tolerance = none → ∀ y, 0 < y → c.options.norm r₀.fu = real y →
      ∃ η, (a.toleranceAt (context r)).eval r = (.ok η, r) ∧ 0.0 < η) := by
  obtain ⟨lo, hi, hsettings⟩ := accepted ha
  constructor
  · intro η w htolerance hη
    obtain ⟨γ, hγ⟩ := isReal_iff.1 hdecrease
    have hcurrent : Current a c r :=
      .of_leads hsettings.memory hfirst hlargest hstart hr herror
    have hmode : r.checker.settings = c.options.termination :=
      (Run.Reaches.follows (a.proceeds c) ⟨r₀, hstart, hr⟩).settings
    obtain ⟨limit, hlimit⟩ :=
      hcurrent.approach_succeeds hsettings hF hnorm hexponent hp hγ hu htolerance hη
    refine ⟨lo, hi, hsettings.reduceMost, hsettings.reduceLeast, limit, fun m hm => ?_⟩
    refine ⟨hlimit m hm, ?_⟩
    rw [step_parts]
    refine ((hlimit m hm).and (approach_lands _ r)).bind (fun _ t ht => ?_) (fun _ _ h => h.1.elim)
    obtain ⟨⟨i, part, hsettled⟩, y, s, -, hs, rfl⟩ := ht
    refine ((Run.check_frame _).and (Run.check_stalls _)).bind (fun _ t ht => ?_)
      (fun e _ h f hf hkind => ?_)
    · obtain ⟨⟨checker, code, stopped, rfl⟩, -⟩ := ht
      exact ⟨i, part, hsettled.tolerance, hsettled.round, hsettled.chosen, hsettled.alpha⟩
    · have hchecker : s.checker = r.checker := congrArg (·.checker) (Run.eq_of_unworked hs)
      have hsafe : s.checker.isSafe = true := h.2 f hf hkind
      rw [hchecker, Checker.isSafe, hmode] at hsafe
      exact hsafe
  · intro hstandard y hy hy'
    obtain ⟨ηs, htakes⟩ := takes_of_leads hr herror
    have hmerit : r₀.ext.first = real (y ^ p) := by
      have hext : r₀.ext.first = a.meritOf c r₀.fu :=
        (start_ok (Run.start_prepared hstart)).first
      rw [hext, meritOf, hy', hexponent, merit_real hy.le hp]
    exact ⟨_, toleranceAt_standard hstandard _ r,
      standardTolerance_pos (htakes.count.2.trans hmerit) (Real.rpow_pos_of_pos hy p)⟩

end Success

section Identity

open TrustRegion

/-- The identity is continuous. -/
theorem identity_continuesAt (x : Fin 1 → ℝ) : identityProblem.ContinuesAt id id x where
  answers _ w hu := identity_evaluate hu w
  reads := .of_forall fun _ _ hv => hv
  continuousAt := continuousAt_id

theorem identity_succeeds :
    plainSearch.refusal? = none ∧
      ∃ r₀, Run.start plainSearch.strategy identitySetup () = .ok r₀ ∧
        ∃ lo hi η, plainSearch.reduceMost = real lo ∧ plainSearch.reduceLeast = real hi ∧
          0.0 < η ∧ ∃ limit : Int, ∀ m ≥ limit,
            ((plainSearch.withRounds m).step identitySetup).Ends r₀
              (fun _ t => ∃ i part,
                Settled (plainSearch.withRounds m) identitySetup r₀ lo hi η i part t)
              (fun (e : Thrown Exact Exact) _ => ∀ f, e = .failure f → f.kind ≠ .stall) := by
  have hexponent : plainSearch.exponent = real 2 := by norm_num [plainSearch, standard]
  obtain ⟨r₀, hstart, hu, hfu, herror⟩ := plainSearch_starts
  have hnorm : identitySetup.options.norm r₀.fu = real 1 :=
    hfu.norm_single.trans (congrArg real abs_one)
  have hsucceeds := search_succeeds plainSearch_accepted rfl rfl rfl hexponent zero_le_two hstart
    .refl herror hu (identity_continuesAt _) continuousNorm_norm
  obtain ⟨η, htolerance, hη⟩ := hsucceeds.2 rfl 1 one_pos hnorm
  obtain ⟨lo, hi, hlo, hhi, limit, hlimit⟩ := hsucceeds.1 η _ htolerance hη
  refine ⟨plainSearch_accepted, r₀, hstart, lo, hi, η, hlo, hhi, hη, limit, fun m hm => ?_⟩
  refine (hlimit m hm).2.mono (fun _ _ h => h) (fun e _ h f hf hkind => ?_)
  cases h f hf hkind

end Identity

section Flat

open TrustRegion

/-- A residual that is one everywhere. -/
noncomputable def flatProblem : Problem Unit Exact Exact where
  residual := .returning fun _ w => (.ok ⟨[1], .ofList [real 1]⟩, w)
  guess := ⟨[1], .ofList [real 1]⟩

/-- A safe mode that looks for progress in each single step. -/
noncomputable def flatSetup : Setup Unit Exact Exact where
  problem := flatProblem
  options :=
    { abstol := 1e-8, reltol := 1e-8, norm := Vec.norm
      termination := { Termination.standard with mode := .absSafe, patienceSteps := 1 } }
  backend := .standard

/-- A constant residual is continuous. -/
theorem flat_continuesAt (x : Fin 1 → ℝ) :
    flatProblem.ContinuesAt (fun _ => .ofList [real 1]) (fun _ => ![(1 : ℝ)]) x where
  answers u w hu := by
    have hx : flatProblem.restructure u = .ok ⟨[1], u⟩ := if_pos hu
    have hF : flatProblem.Computes (flatProblem.residualOf fun _ => .ok ⟨[1], .ofList [real 1]⟩) :=
      Problem.computes_returning rfl fun _ _ => rfl
    rw [hF u w, Problem.residualOf, hx]
    rfl
  reads := .of_forall fun _ _ _ => rfl
  continuousAt := continuousAt_const

/-- The checks at the start of the run. -/
noncomputable def flatChecker : Checker Exact Exact :=
  .ofStart flatSetup.options.termination (.ofList [real 1]) (.ofList [real 1]) 1e-8 1e-8 Vec.norm

/-- The first check sees no progress. -/
theorem flatChecker_stalls {fu u : Vec Exact} (hfu : fu.Reads ![(1 : ℝ)]) (hu : u.isFinite)
    (previous : Vec Exact) :
    (Checker.check fu u previous).Ends flatChecker (fun _ _ => False)
      (fun e _ => ∃ f, e = .failure f ∧ f.kind = .stall) := by
  have hnorm : fu.norm = real 1 := hfu.norm_single.trans (congrArg real abs_one)
  have hfirst : (Vec.ofList [real 1] : Vec Exact).norm = real 1 :=
    (Vec.Reads.norm_single rfl).trans (congrArg real abs_one)
  have hmode : flatChecker.settings.mode = .absSafe := rfl
  have hnormed : flatChecker.norm fu = real 1 := hnorm
  have hcriterion : flatChecker.criterion fu u = .ok 1e-8 := rfl
  have hfar : ¬real 1 ≤ (1e-8 : Exact) := by norm_num
  simp only [Checker.check, ends_bind, ends_get, hfu.isFinite, hu, Bool.and_self, Bool.not_true,
    Bool.false_eq_true, if_false, ends_set, hmode, hnormed, ends_ofFault_ok hcriterion, if_neg hfar]
  have hsafe : flatChecker.isSafe = true := rfl
  have hbest : ¬real 1 < flatChecker.bestNorm := by
    change ¬real 1 < (Vec.ofList [real 1] : Vec Exact).norm
    rw [hfirst, real_lt]
    exact lt_irrefl 1
  have hguard : ¬flatChecker.settings.protectiveThreshold * flatChecker.initial < real 1 := by
    change ¬(1e3 : Exact) * (Vec.ofList [real 1] : Vec Exact).norm < real 1
    rw [hfirst]
    norm_num
  simp only [hsafe, if_true, Checker.checkProgress, ends_bind, ends_get, if_neg hbest,
    if_neg hguard, ends_pure, ends_modify]
  split
  · exact ⟨_, rfl, rfl⟩
  next hprogress =>
    have hstuck : Checker.isStuck { flatChecker with lastFinite := u, history := [real 1] }
        (real 1) 1e-8 = true := by
      have hlow : (3.0 : Exact) * 1e-8 ≤ real 1 := by norm_num
      have hflat : real 1 < (1.3 : Exact) * real 1 := by norm_num
      exact Bool.and_eq_true_iff.2 ⟨Bool.and_eq_true_iff.2 ⟨rfl, decide_eq_true hlow⟩,
        decide_eq_true hflat⟩
    exact hprogress hstuck

theorem flat_check {r : Run Unit Exact Exact (State Exact)} (hchecker : r.checker = flatChecker)
    (hfu : r.fu.Reads ![(1 : ℝ)]) (hu : r.u.isFinite) :
    (Run.check : Stepping Unit Exact Exact (State Exact) Bool).Ends r (fun _ _ => False)
      (fun e _ => ∃ f, e = .failure f ∧ f.kind = .stall) := by
  simp only [Run.check, ends_bind, ends_get, ends_within, hchecker]
  exact (flatChecker_stalls hfu hu r.previous).mono (fun _ _ h => h.elim) (fun _ _ h => h)

theorem flat_starts :
    ∃ r₀, Run.start plainSearch.strategy flatSetup () = .ok r₀ ∧ r₀.u.Reads ![(1 : ℝ)] ∧
      r₀.fu.Reads ![(1 : ℝ)] ∧ r₀.ext.first = real 1 ∧ r₀.checker = flatChecker := by
  have hmerit : plainSearch.meritOf identitySetup (.ofList [real 1]) = real 1 :=
    plainSearch_merit_one rfl
  exact ⟨_, rfl, rfl, rfl, hmerit, rfl⟩

/-- With enough rounds the search of the step succeeds, and still the step is stalled: by the check
of a safe mode, which sees no progress. -/
theorem flat_stalls :
    plainSearch.refusal? = none ∧ plainSearch.exponent = real 2 ∧
      flatSetup.options.termination.refusal? = none ∧
      flatProblem.ContinuesAt (fun _ => .ofList [real 1]) (fun _ => ![(1 : ℝ)]) ![(1 : ℝ)] ∧
      ∃ r₀ η, Run.start plainSearch.strategy flatSetup () = .ok r₀ ∧ r₀.u.Reads ![(1 : ℝ)] ∧
        plainSearch.meritOf flatSetup r₀.fu = real 1 ∧
        (plainSearch.toleranceAt (context r₀)).eval r₀ = (.ok η, r₀) ∧ 0.0 < η ∧
        ∃ limit : Int, ∀ m ≥ limit, ∃ f t,
          ((plainSearch.withRounds m).step flatSetup).eval r₀ = (.error (.failure f), t) ∧
            f.kind = .stall := by
  have hexponent : plainSearch.exponent = real 2 := by norm_num [plainSearch, standard]
  obtain ⟨r₀, hstart, hu, hfu, hfirst, hchecker⟩ := flat_starts
  obtain ⟨lo, hi, hsettings⟩ := accepted plainSearch_accepted
  have hcurrent : Current plainSearch flatSetup r₀ := .of_start hsettings.memory rfl hstart
  have hmerit : plainSearch.meritOf flatSetup r₀.fu = real 1 := plainSearch_merit_one hfu
  have htolerance := toleranceAt_standard (a := plainSearch) rfl (context r₀) r₀
  have hη := standardTolerance_pos hfirst one_pos
  obtain ⟨limit, hlimit⟩ := hcurrent.approach_succeeds hsettings (flat_continuesAt _)
    continuousNorm_norm hexponent zero_le_two rfl hu htolerance hη
  refine ⟨plainSearch_accepted, hexponent, rfl, flat_continuesAt _, r₀, _, hstart, hu, hmerit,
    htolerance, hη, limit, fun m hm => ?_⟩
  have hstalls : ((plainSearch.withRounds m).step flatSetup).Ends r₀ (fun _ _ => False)
      (fun e _ => ∃ f, e = .failure f ∧ f.kind = .stall) := by
    rw [step_parts]
    refine ((hlimit m hm).and (approach_lands _ r₀)).bind (fun _ t ht => ?_)
      (fun _ _ h => h.1.elim)
    obtain ⟨⟨i, part, hsettled⟩, x, s, -, hs, rfl⟩ := ht
    obtain ⟨spectral, hspectral⟩ := hcurrent.spectral
    have hmoved := hsettled.chosen.reads hu hfu hspectral
    have hflat := (flat_continuesAt ![(1 : ℝ)]).eq_of_answered hsettled.chosen.stands.answered
    have hkept : s.checker = flatChecker :=
      (congrArg (·.checker) (Run.eq_of_unworked hs)).trans hchecker
    have hcheck := flat_check (r := (plainSearch.withRounds m).landed r₀ x s) hkept hflat
      hmoved.isFinite
    exact hcheck.bind (fun _ _ h => h.elim) (fun _ _ h => h)
  rcases heval : ((plainSearch.withRounds m).step flatSetup).eval r₀ with ⟨e | x, t⟩
  · obtain ⟨f, rfl, hkind⟩ := hstalls.error heval
    exact ⟨f, t, rfl, hkind⟩
  · exact (hstalls.ok heval).elim

end Flat

end SpectralResidual

end RootFinding
