import RootFinding.Proofs.SafeHistory
import RootFinding.Proofs.SeparateEquations

/-!
# The turns of a run

The uphill rule of Levenberg-Marquardt needs the cosine between a velocity and the last one that was
taken. Where the linear systems tell zero from what is not zero it is always defined, as long as the
run does not fail.

* `LevenbergMarquardt.run_turns`: so it is for every velocity of a run.
* `LevenbergMarquardt.ledge`: a line that ends in a ledge, where a velocity is lost.
* `LevenbergMarquardt.pair_stranded`: the method of least squares drops an unknown, and a velocity
  of zero is taken away from rest.
* `LevenbergMarquardt.single_stranded`: a run at rest on a ledge falls back to where it is not.
-/

open scoped Matrix

namespace RootFinding

open Action Exact ExactEntry

namespace LevenbergMarquardt

/-! ## A ledge -/

section Ledge

/-- A line with the slope `p` that ends in a ledge of the height `low`. -/
noncomputable def ledge (p low x : ℝ) : ℝ := if 0 < x then p * (x + 1) else low

noncomputable def ledgeSlope (p x : ℝ) : ℝ := if 0 < x then p else 0

/-- A plain mode, which looks at each residual. -/
noncomputable def plain : Termination Exact := { Termination.standard with mode := .abs }

variable {p low : ℝ}

@[simp] theorem ledge_one : ledge p low 1 = p * (1 + 1) := if_pos one_pos

@[simp] theorem ledge_zero : ledge p low 0 = low := if_neg (lt_irrefl 0)

@[simp] theorem ledgeSlope_one : ledgeSlope p 1 = p := if_pos one_pos

@[simp] theorem ledgeSlope_zero : ledgeSlope p 0 = 0 := if_neg (lt_irrefl 0)

/-! ### A place where the velocity is lost -/

/-- A ledge of no height in the first equation, and a second one that is far less steep. -/
noncomputable def pairAt (p : ℝ) : Fin 2 → ℝ → ℝ := ![ledge p 0, id]

noncomputable def pairSlope (p : ℝ) : Fin 2 → ℝ → ℝ := ![ledgeSlope p, fun _ => 1]

noncomputable def pairSetup (p : ℝ) : Setup Unit Exact Exact :=
  separateSetup (pairAt p) (pairSlope p) ![1, 1] plain

variable {r₀ r t : Run Unit Exact Exact (State Exact Exact)} {k : Nat}

/-- The second residual is one all along, so the run does not converge. -/
theorem pair_check {x : Fin 2 → ℝ} {choice : SystemChoice Exact}
    (hcomes : Comes choice (pairSetup p) r₀ k r) (hr₀ : r₀.checker.Follows (pairSetup p).options)
    (hx : x 1 = 1) {u fu : Vec Exact} (previous : Vec Exact) (hu : u.Reads x)
    (hfu : fu.Reads fun i => pairAt p i (x i)) :
    (Checker.check fu u previous).Ends r.checker (fun b _ => b = false) (fun _ _ => False) := by
  have hfollows : r.checker.Follows (pairSetup p).options :=
    hcomes.leads.follows ((choosing choice).proceeds _) hr₀
  have hmode : r.checker.settings.mode = .abs := by rw [hfollows.settings]; rfl
  refine Checker.entry_check (i := 1) hmode hfollows.abstol hu hfu ?_ previous
  rw [hx]
  norm_num [pairAt]

/-- The first step ends on the ledge, with no move along the second unknown. -/
theorem pair_first (hsteep : 4 ≤ 1 / 4503599627370496 * (p * p))
    (hlimit : 1 / 4503599627370496 * (p * p) < 10) (hp : 0 < p)
    (hr : Stands (.named "lstsq") (pairSetup p) (pairAt p) ![1, 1] (fun _ => 1e-8) 1 .lstsq r)
    (hcomes : Comes (.named "lstsq") (pairSetup p) r₀ 0 r)
    (hr₀ : r₀.checker.Follows (pairSetup p).options) (hnone : r.ext.velocity = none) :
    ∃ t, Comes (.named "lstsq") (pairSetup p) r₀ 1 t ∧
      Stands (.named "lstsq") (pairSetup p) (pairAt p) ![0, 1] ![p * p, 1] (1 / 3) .lstsq t := by
  have hraised : raised (pairSlope p) ![1, 1] (fun _ => 1e-8) = ![p * p, 1] := by
    have hlarge : (1e-8 : ℝ) ≤ p * p := by linarith
    funext i
    fin_cases i
    · simpa [raised, pairSlope] using hlarge
    · norm_num [raised, pairSlope]
  have hanswered : AnsweredBy (pairAt p) (pairSlope p) ![1, 1] ![1, 1] (fun _ => 1e-8) 1 .lstsq
      ![1, 0] := by
    have hdropped : ¬1 / 4503599627370496 * (2 * (p * p)) < 2 := by linarith
    refine answered_pair (p := 2 * (p * p)) (q := 2) ?_ ?_ (by norm_num) (by nlinarith)
      (by nlinarith) ?_ (if_neg hdropped).symm
    · rw [pivot, hraised]
      simp [pairSlope]
      ring
    · rw [pivot, hraised]
      norm_num [pairSlope]
    · simp [pairSlope, pairAt]
      field_simp
      norm_num
  have hahead : ![(1 : ℝ), 1] - ![1, 0] = ![0, 1] := by simp
  have hle : ∀ i, |pairAt p i ((![(1 : ℝ), 1] - ![1, 0] : Fin 2 → ℝ) i)| ≤
      |pairAt p i (![(1 : ℝ), 1] i)| := by
    rw [hahead]
    intro i
    fin_cases i <;> simp [pairAt]
  obtain ⟨t, ht, hstands, -, -⟩ := hr.next hcomes (by norm_num) hanswered
    (fun v _ => by rw [hnone]; norm_num [cosine]) hle
    (fun previous hu hfu => pair_check hcomes hr₀ (by simp) previous hu hfu)
  rw [hahead, hraised] at hstands
  exact ⟨t, ht, hstands⟩

/-- The scaling stays what it was on the slope. -/
theorem pair_raised : raised (pairSlope p) ![0, 1] ![p * p, 1] = ![p * p, 1] := by
  funext i
  fin_cases i
  · simpa [raised, pairSlope] using mul_self_nonneg p
  · norm_num [raised, pairSlope]

/-- On the ledge the second unknown counts once the damping is low enough. -/
theorem pair_answered {damping : ℝ} (hdamping : 0 < damping)
    (hlarge : 1 + damping ≤ damping * (p * p)) (hhigh : damping * (p * p) ≤ 1e100) :
    AnsweredBy (pairAt p) (pairSlope p) ![1, 1] ![0, 1] ![p * p, 1] damping .lstsq
      ![0, if 1 / 4503599627370496 * (damping * (p * p)) < 1 + damping then 1 / (1 + damping)
        else 0] := by
  refine answered_pair (p := damping * (p * p)) (q := 1 + damping) ?_ ?_ (by norm_num; linarith)
    hlarge hhigh ?_ ?_
  · rw [pivot, pair_raised]
    simp [pairSlope]
  · rw [pivot, pair_raised]
    simp [pairSlope]
  · simp [pairSlope]
  · simp [pairSlope, pairAt]

/-- The second step has a velocity of zero, and is taken. -/
theorem pair_second (hsteep : 4 ≤ 1 / 4503599627370496 * (p * p))
    (hlimit : 1 / 4503599627370496 * (p * p) < 10)
    (hr : Stands (.named "lstsq") (pairSetup p) (pairAt p) ![0, 1] ![p * p, 1] (1 / 3) .lstsq r)
    (hcomes : Comes (.named "lstsq") (pairSetup p) r₀ 1 r)
    (hr₀ : r₀.checker.Follows (pairSetup p).options) :
    ∃ t w, Comes (.named "lstsq") (pairSetup p) r₀ 2 t ∧
      Stands (.named "lstsq") (pairSetup p) (pairAt p) ![0, 1] ![p * p, 1] (1 / 9) .lstsq t ∧
      t.ext.velocity = some w ∧ w.isZero = true := by
  have hthird : (0 : ℝ) < 1 / 3 := by norm_num
  have hanswered := pair_answered (p := p) hthird (by linarith) (by linarith)
  have hzero : ![(0 : ℝ), 0] = 0 := by simp
  rw [if_neg (by linarith), hzero] at hanswered
  obtain ⟨t, w, ht, hstands, hvelocity⟩ := hr.rests hcomes (by norm_num) hanswered
    fun previous hu hfu => pair_check hcomes hr₀ (by simp) previous hu hfu
  have hninth : (1 / 3 / 3 : ℝ) = 1 / 9 := by norm_num
  rw [pair_raised, hninth] at hstands
  exact ⟨t, w, ht, hstands, hvelocity⟩

/-- A run with the least squares method takes a step with a velocity of zero away from rest, and has
no cosine for the next velocity, which is not zero. -/
theorem pair_stranded (hsteep : 4 ≤ 1 / 4503599627370496 * (p * p))
    (hlimit : 1 / 4503599627370496 * (p * p) < 10) (hp : 0 < p) :
    ∃ r₀ r v w, Run.start (choosing (.named "lstsq")).strategy (pairSetup p) () = .ok r₀ ∧
      Run.Leads (choosing (.named "lstsq")).strategy (pairSetup p) r₀ r ∧ r.error = none ∧
      r.ext.velocity = some w ∧ w.isZero = true ∧ ¬AtRest (pairSetup p) r ∧
      IsVelocity (pairSetup p) r v ∧ Scalar.same v.norm 0.0 = false ∧ v.norm * w.norm = real 0 ∧
      cosine v (some w) = undefined := by
  obtain ⟨r₀, hstart, hstands, hnone, hcomes, hchecker⟩ :=
    separate_starts (pairAt p) (pairSlope p) ![1, 1] plain (.named "lstsq") rfl rfl
  have hr₀ : r₀.checker.Follows (pairSetup p).options := by
    rw [hchecker]
    exact ⟨rfl, rfl, rfl, rfl⟩
  obtain ⟨s, hcomes, hstands⟩ := pair_first hsteep hlimit hp hstands hcomes hr₀ hnone
  obtain ⟨r, w, hcomes, hstands, hw, hzero⟩ := pair_second hsteep hlimit hstands hcomes hr₀
  have hninth : (0 : ℝ) < 1 / 9 := by norm_num
  have hanswered := pair_answered (p := p) hninth (by linarith) (by linarith)
  rw [if_pos (by linarith)] at hanswered
  obtain ⟨J, A, t, v, fu, -, ⟨hmodel, t', hvelocity, -⟩, -, hv, -, -⟩ := hstands.tries hanswered
  have hne : v.isZero = false := hv.isZero_eq_false (i := 1) (by norm_num)
  exact ⟨r₀, r, v, w, hstart, hcomes.leads, hcomes.error, hw, hzero,
    not_atRest (i := 1) hstands.iterate hstands.residual (by simp [pairSlope, pairAt]),
    ⟨J, A, t, t', hmodel, hvelocity⟩, cosine_undefined ℝ hv.isFinite hne hzero⟩

/-! ### A place of rest, and a run that falls back from it -/

/-- A ledge as high as the line is where the run starts. -/
noncomputable def singleAt : Fin 1 → ℝ → ℝ := ![ledge 1 (1 + 1)]

noncomputable def singleSlope : Fin 1 → ℝ → ℝ := ![ledgeSlope 1]

noncomputable def singleSetup (termination : Termination Exact) : Setup Unit Exact Exact :=
  separateSetup singleAt singleSlope ![1] termination

variable {termination : Termination Exact}

/-- The residual has the same size before and on the ledge. -/
theorem single_reads {x : Fin 1 → ℝ} (hx : x = ![1] ∨ x = ![0]) {fu : Vec Exact}
    (hfu : fu.Reads fun i => singleAt i (x i)) : fu.Reads ![(2 : ℝ)] := by
  have hlevel : (fun i => singleAt i (x i)) = ![2] := by
    funext i
    fin_cases i
    rcases hx with rfl | rfl <;> norm_num [singleAt]
  rwa [hlevel] at hfu

theorem single_norm {x : Fin 1 → ℝ} (hx : x = ![1] ∨ x = ![0]) {fu : Vec Exact}
    (hfu : fu.Reads fun i => singleAt i (x i)) : fu.norm = real 2 :=
  (single_reads hx hfu).norm_single.trans (congrArg real (abs_of_pos two_pos))

/-- The first step ends on the ledge. -/
theorem single_first
    (hr : Stands .byMatrix (singleSetup termination) singleAt ![1] (fun _ => 1e-8) 1 .lu r₀)
    (hcomes : Comes .byMatrix (singleSetup termination) r₀ 0 r₀) (hnone : r₀.ext.velocity = none)
    (hcheck : ∀ {u fu : Vec Exact} previous, u.Reads ![(0 : ℝ)] →
      fu.Reads (fun i => singleAt i (![(0 : ℝ)] i)) →
        (Checker.check fu u previous).Ends r₀.checker (fun b _ => b = false) (fun _ _ => False)) :
    ∃ r, Comes .byMatrix (singleSetup termination) r₀ 1 r ∧
      Stands .byMatrix (singleSetup termination) singleAt ![0] ![1] (1 / 3) .lu r ∧
      ∃ previous, (Checker.check r.fu r.u previous).eval r₀.checker = (.ok false, r.checker) := by
  have hahead : ![(1 : ℝ)] - ![1] = ![0] := by
    funext i
    fin_cases i
    exact sub_self 1
  have hraised : raised singleSlope ![1] (fun _ => 1e-8) = ![1] := by
    funext i
    fin_cases i
    norm_num [raised, singleSlope]
  have hanswered : AnsweredBy singleAt singleSlope ![1] ![1] (fun _ => 1e-8) 1 .lu ![1] := by
    have hpivot : pivot singleSlope ![1] (fun _ => 1e-8) 1 0 = 2 := by
      rw [pivot, hraised]
      norm_num [singleSlope]
    refine answered_single (by rw [hpivot]; norm_num) ?_
    rw [hpivot]
    norm_num [singleSlope, singleAt]
  obtain ⟨r, hcomes, hstands, -, hchecked⟩ := hr.next hcomes (by norm_num) hanswered
    (fun v _ => by rw [hnone]; norm_num [cosine])
    (fun i => by rw [hahead]; fin_cases i; norm_num [singleAt])
    (by rw [hahead]; exact hcheck)
  rw [hahead, hraised] at hstands
  exact ⟨r, hcomes, hstands, hchecked⟩

/-- On the ledge the velocity is zero. -/
theorem single_answered :
    AnsweredBy singleAt singleSlope ![1] ![0] ![1] (1 / 3) .lu 0 := by
  have hpivot : pivot singleSlope ![0] ![1] (1 / 3) 0 = 1 / 3 := by
    norm_num [pivot, raised, singleSlope]
  refine answered_single (by rw [hpivot]; norm_num) ?_
  norm_num [singleSlope]

/-- A run with a plain mode takes a step with a velocity of zero on the ledge. -/
theorem single_rests :
    ∃ r₀ r w, Run.start (choosing .byMatrix).strategy (singleSetup plain) () = .ok r₀ ∧
      IsDirect r₀ ∧ r₀.fu.isFinite = true ∧
      Run.Leads (choosing .byMatrix).strategy (singleSetup plain) r₀ r ∧ r.error = none ∧
      r.ext.velocity = some w ∧ w.isZero = true := by
  obtain ⟨r₀, hstart, hstands, hnone, hcomes, hchecker⟩ :=
    separate_starts singleAt singleSlope ![1] plain .byMatrix rfl rfl
  have hfollows : r₀.checker.Follows (singleSetup plain).options := by
    rw [hchecker]
    exact ⟨rfl, rfl, rfl, rfl⟩
  have hchecks : ∀ {k : Checker Exact Exact} {u fu : Vec Exact},
      k.Follows (singleSetup plain).options → ∀ previous, u.Reads ![(0 : ℝ)] →
        fu.Reads (fun i => singleAt i (![(0 : ℝ)] i)) →
          (Checker.check fu u previous).Ends k (fun b _ => b = false) (fun _ _ => False) :=
    fun {k u fu} hk previous hu hfu => Checker.entry_check (i := 0) (by rw [hk.settings]; rfl)
      hk.abstol hu (single_reads (.inr rfl) hfu) (by norm_num) previous
  obtain ⟨s, hs, hstands', -⟩ := single_first hstands hcomes hnone (hchecks hfollows)
  obtain ⟨r, w, hr, -, hw, hzero⟩ := hstands'.rests hs (by norm_num) single_answered
    (hchecks (hs.leads.follows ((choosing .byMatrix).proceeds _) hfollows))
  refine ⟨r₀, r, w, hstart, fun m hm => ?_, hstands.residual.isFinite, hr.leads, hr.error, hw,
    hzero⟩
  have hlu : m = .lu := by
    have hmethod := hstands.method
    rwa [Option.mem_def.1 hm, Option.getD_some] at hmethod
  rw [hlu]
  trivial

/-- In a safe mode a second look at the ledge ends the run, and the start is still the best iterate.
-/
theorem single_stalls :
    ∃ r₀ r,
      Run.start (choosing .byMatrix).strategy (singleSetup SafeHistory.twoSteps) () = .ok r₀ ∧
      r₀.u.Reads ![(1 : ℝ)] ∧ Comes .byMatrix (singleSetup SafeHistory.twoSteps) r₀ 1 r ∧
      Stands .byMatrix (singleSetup SafeHistory.twoSteps) singleAt ![0] ![1] (1 / 3) .lu r ∧
      ∀ l : Look Exact, l.residual.norm = real 2 →
        (Checker.look l).Ends r.checker (fun _ _ => False)
          (fun e k => (∃ f, e = .failure f ∧ f.kind = .stall) ∧ k.best = r₀.u) := by
  obtain ⟨r₀, hstart, hstands, hnone, hcomes, hchecker⟩ :=
    separate_starts singleAt singleSlope ![1] SafeHistory.twoSteps .byMatrix rfl rfl
  let start : Look Exact :=
    ⟨r₀.fu, r₀.u, r₀.u, hstands.residual.isFinite, hstands.iterate.isFinite⟩
  have hfirst : start.residual.norm = real 2 := single_norm (.inl rfl) hstands.residual
  have hlooks : ∀ {u fu : Vec Exact} previous, u.Reads ![(0 : ℝ)] →
      fu.Reads (fun i => singleAt i (![(0 : ℝ)] i)) →
        (Checker.check fu u previous).Ends r₀.checker
          (fun b k => b = false ∧ ∀ l : Look Exact, l.residual.norm = real 2 →
            (Checker.look l).Ends k (fun _ _ => False)
              (fun e k' => (∃ f, e = .failure f ∧ f.kind = .stall) ∧ k'.best = r₀.u))
          (fun _ _ => False) := by
    intro u fu previous hu hfu
    let l : Look Exact := ⟨fu, u, previous, hfu.isFinite, hu.isFinite⟩
    have hl : l.residual.norm = real 2 := single_norm (.inr rfl) hfu
    rw [hchecker]
    exact SafeHistory.level_looks (by norm_num) hfirst hl
  obtain ⟨r, hr, hstands', previous, hchecked⟩ := single_first hstands hcomes hnone
    fun previous hu hfu => (hlooks previous hu hfu).mono (fun _ _ h => h.1) (fun _ _ h => h)
  exact ⟨r₀, r, hstart, hstands.iterate, hr, hstands',
    ((hlooks previous hstands'.iterate hstands'.residual).ok hchecked).2⟩

/-- The run stops on the ledge and falls back to its start, with a last velocity of zero. -/
theorem single_stranded :
    ∃ r₀ t w,
      Run.start (choosing .byMatrix).strategy (singleSetup SafeHistory.twoSteps) () = .ok r₀ ∧
      Run.Leads (choosing .byMatrix).strategy (singleSetup SafeHistory.twoSteps) r₀ t ∧
      t.error ≠ none ∧ t.ext.velocity = some w ∧ w.isZero = true ∧
      ¬AtRest (singleSetup SafeHistory.twoSteps) t := by
  obtain ⟨r₀, r, hstart, hu₀, hcomes, hstands, hstalls⟩ := single_stalls
  obtain ⟨g, s, v, hfails, hu, hbest, hvelocity, hv⟩ := hstands.stalls
    (P := fun k => k.best = r₀.u) single_answered (fun v hv => cosine_of_neg_zero hv _)
    (fun i => by rw [sub_zero])
    (fun {u fu} previous hu hfu => by
      let l : Look Exact := ⟨fu, u, previous, hfu.isFinite, hu.isFinite⟩
      have hl : l.residual.norm = real 2 := single_norm (.inr (sub_zero _)) hfu
      exact (hstalls l hl).mono (fun _ _ h => h)
        (fun e k h => ⟨h.1.imp fun _ hf => hf.1, h.2⟩))
  -- the failure takes the run back to the best iterate, which is the start
  obtain ⟨t, hstep, herror, hext, hback⟩ := Run.Reaches.fails
    ((choosing .byMatrix).proceeds (singleSetup SafeHistory.twoSteps)) separate_computes
    (separate_finiteAt separate_guess) ⟨r₀, hstart, hcomes.leads⟩ hfails
  have hfar : ¬s.checker.best.same s.u := fun hsame => by
    rw [hbest] at hsame
    have hone := congrFun (hu₀.eq_of_same hu hsame) 0
    norm_num at hone
  obtain ⟨hut, hfits⟩ := hback rfl hfar
  rw [hbest] at hut
  obtain ⟨fu, hfu, hreads⟩ := separateFunction_reads singleAt singleSlope ![1] hu₀
  rw [hut, hfu] at hfits
  obtain rfl := Except.ok.inj hfits
  rw [neg_zero] at hv
  exact ⟨r₀, t, v, hstart, hcomes.leads.step (hcomes.isActive (by norm_num)) hstep,
    herror ▸ Option.some_ne_none g, by rw [hext, hvelocity], hv.isZero,
    not_atRest (i := 0) (hut ▸ hu₀) hreads (by norm_num [singleSlope, singleAt])⟩

end Ledge

/-! ## Turns -/

/-- **Turns.**  In a run whose linear systems tell zero from what is not zero, as elimination does,
every velocity has a cosine with the last one that was taken. Where that is zero, the gradient at
the iterate is zero, and all later velocities are zero. Whatever the systems answer, a cosine that
is defined is a number between minus one and one. -/
theorem run_turns {σ τ 𝕜 K : Type} [RCLike 𝕜] [Entry Exact K] [ExactEntry 𝕜 K] [ExactParts 𝕜 K]
    [ExactZero 𝕜 K] {a : LevenbergMarquardt Exact} {c : Setup σ Exact K} {part : σ → τ}
    {r₀ : Run σ Exact K (State Exact K)} {damping increase decrease floor : ℝ} {world : σ}
    (hreal : a.HasReals damping increase decrease floor) (ha : a.refusal? = none)
    (hgeodesic : Geodesic.Differs a.geodesic) (hB : c.backend.Frames) (hp : c.problem.ZeroFilled)
    (hsteady : c.problem.Steady part) (hstart : Run.start a.strategy c world = .ok r₀) :
    (c.backend.Eliminates 𝕜 → IsDirect r₀ → r₀.fu.isFinite = true →
      ∀ r, Run.Leads a.strategy c r₀ r → r.error = none → Faithful c r) ∧
    ((∀ r, Run.Leads a.strategy c r₀ r → r.error = none → Faithful c r) →
      ∀ r, Run.Leads a.strategy c r₀ r → r.error = none →
        (∀ v, IsVelocity c r v → HasTurn v r.ext.velocity) ∧
        ∀ w, r.ext.velocity = some w → w.isZero = true → AtRest c r ∧
          ∀ t, Run.Leads a.strategy c r t → t.error = none → ∀ v, IsVelocity c t v →
            v.isZero = true) ∧
    ∀ r, Run.Leads a.strategy c r₀ r → ∀ v, IsVelocity c r v →
      cosine v r.ext.velocity ≠ undefined → IsTurn v r.ext.velocity := by
  refine ⟨fun heliminates hdirect hfinite r h hr =>
    faithful_of_leads 𝕜 hreal ha hB hp hstart heliminates hdirect hfinite h hr,
    fun hfaithful r h hr => ?_, fun _ _ _ _ => isTurn_of_ne 𝕜⟩
  have hpoised : Poised c r :=
    poised_of_leads 𝕜 hreal ha hB hp hstart hgeodesic hsteady hfaithful h hr
  constructor
  · rintro v hv
    refine hasTurn_of_isZero 𝕜 ?_ hpoised.finite fun w hw hzero =>
      isZero_of_rest 𝕜 hreal ha hB hp hstart hgeodesic hsteady hfaithful h hr hw hzero hv
    obtain ⟨J, A, s, s', hcomputes⟩ := hv
    exact hcomputes.finite 𝕜
  · intro w hw hzero
    refine ⟨hpoised.rest w hw hzero, fun t ht hnone v hv => ?_⟩
    obtain ⟨w', hw', hzero'⟩ := rest_of_leads 𝕜 hreal ha hB hp hstart hgeodesic hsteady hfaithful h
      hr hw hzero ht hnone
    exact isZero_of_rest 𝕜 hreal ha hB hp hstart hgeodesic hsteady hfaithful (h.trans ht) hnone hw'
      hzero' hv

/-- The standard settings are accepted with every linear system. -/
theorem choosing_accepted (choice : SystemChoice Exact) : (choosing choice).refusal? = none :=
  standard_accepted

theorem choosing_differs (choice : SystemChoice Exact) :
    Geodesic.Differs (choosing choice).geodesic :=
  fun h => by cases h

theorem kink_steady : kinkProblem.Steady (id : Unit → Unit) :=
  Problem.steady_of_pure rfl rfl

/-- The run over the kink turns back in its second step. The run to the ledge comes to rest. -/
theorem kink_turns_ledge_rests :
    (∃ r₀ r v w, Run.start (standard : LevenbergMarquardt Exact).strategy kinkSetup () = .ok r₀ ∧
      Run.Leads (standard : LevenbergMarquardt Exact).strategy kinkSetup r₀ r ∧ r.error = none ∧
      IsVelocity kinkSetup r v ∧ v.isZero = false ∧ r.ext.velocity = some w ∧
      HasTurn v (some w)) ∧
    ∃ r₀ r w, Run.start (choosing .byMatrix).strategy (singleSetup plain) () = .ok r₀ ∧
      Run.Leads (choosing .byMatrix).strategy (singleSetup plain) r₀ r ∧ r.error = none ∧
      r.ext.velocity = some w ∧ w.isZero = true ∧ AtRest (singleSetup plain) r := by
  constructor
  · obtain ⟨r₀, hstart, hready, hgoing, hnone, hmethod, hactive, -⟩ := kink_starts
    obtain ⟨r, hstep, hturned⟩ := kink_turns hready hgoing hnone
    have hleads := Run.Leads.step .refl hactive hstep
    obtain ⟨helimination, hturns, -⟩ := run_turns (𝕜 := ℝ) standard_reals standard_accepted
      (fun h => by cases h) Backend.standard_frames kink_zeroFilled kink_steady hstart
    have hdirect : IsDirect r₀ := fun m hm => by
      rw [hmethod] at hm
      cases hm
    have hfaithful := helimination (Backend.standard_eliminates ℝ) hdirect hready.residual.isFinite
    obtain ⟨w, -, hw⟩ := hturned.last
    obtain ⟨y, hy, hback, -⟩ := exists_back hturned.damped
    obtain ⟨J, A, s, v, fu, -, ⟨hmodel, s', hvelocity, -⟩, -, -, hv, -⟩ := hturned.ready.tries
      (by rw [kinkSlope_right]; norm_num) hy
    have hcomputed : IsVelocity kinkSetup r v := ⟨J, A, s, s', hmodel, hvelocity⟩
    have hturn := (hturns hfaithful r hleads hturned.going.error).1 v hcomputed
    rw [hw] at hturn
    have hne : v.isZero = false := hv.isZero_eq_false (i := 0) hback.ne
    exact ⟨r₀, r, v, w, hstart, hleads, hturned.going.error, hcomputed, hne, hw, hturn⟩
  · obtain ⟨r₀, r, w, hstart, hdirect, hfinite, hleads, herror, hw, hzero⟩ := single_rests
    obtain ⟨helimination, hturns, -⟩ := run_turns (𝕜 := ℝ)
      (standard_reals : (choosing .byMatrix).HasReals 1.0 2.0 3.0 1e-8) (choosing_accepted _)
      (choosing_differs _) Backend.standard_frames separate_zeroFilled separate_steady hstart
    have hfaithful := helimination (Backend.standard_eliminates ℝ) hdirect hfinite
    exact ⟨r₀, r, w, hstart, hleads, herror, hw, hzero,
      ((hturns hfaithful r hleads herror).2 w hw hzero).1⟩

/-- With settings that are accepted and a problem that answers the same each time, a run that has
failed in a safe mode can be away from rest with a last velocity of zero, and a run that solves its
systems by least squares can be so before it fails; then the next velocity has no cosine. -/
theorem velocities_stranded :
    ((choosing .byMatrix).refusal? = none ∧ Geodesic.Differs (choosing .byMatrix).geodesic ∧
      (singleSetup SafeHistory.twoSteps).problem.Steady (id : Unit → Unit) ∧
      ∃ r₀ t w,
        Run.start (choosing .byMatrix).strategy (singleSetup SafeHistory.twoSteps) () = .ok r₀ ∧
        Run.Leads (choosing .byMatrix).strategy (singleSetup SafeHistory.twoSteps) r₀ t ∧
        t.error ≠ none ∧ t.ext.velocity = some w ∧ w.isZero = true ∧
        ¬AtRest (singleSetup SafeHistory.twoSteps) t) ∧
    (choosing (.named "lstsq")).refusal? = none ∧
      Geodesic.Differs (choosing (.named "lstsq")).geodesic ∧
      (pairSetup 200000000).problem.Steady (id : Unit → Unit) ∧
      ∃ r₀ r v w,
        Run.start (choosing (.named "lstsq")).strategy (pairSetup 200000000) () = .ok r₀ ∧
        Run.Leads (choosing (.named "lstsq")).strategy (pairSetup 200000000) r₀ r ∧
        r.error = none ∧ r.ext.velocity = some w ∧ w.isZero = true ∧
        ¬AtRest (pairSetup 200000000) r ∧ IsVelocity (pairSetup 200000000) r v ∧
        Scalar.same v.norm 0.0 = false ∧ v.norm * w.norm = real 0 ∧
        cosine v (some w) = undefined :=
  ⟨⟨choosing_accepted _, choosing_differs _, separate_steady, single_stranded⟩,
    choosing_accepted _, choosing_differs _, separate_steady,
    pair_stranded (by norm_num) (by norm_num) (by norm_num)⟩

end LevenbergMarquardt

end RootFinding
