import RootFinding.Proofs.Costs

/-!
# The counters of a run

What the counters of a solve say in every state that a run gets to without a failure, and that they
count every evaluation in every run.

* `Run.Chronicle S c mark r marks t`: from `r` the run has got to `t` by steps that have not failed,
  with the given marks in turn.
  `Run.Chronicle.spends`: its cost is that of the marks.
  `Run.Chronicle.spends_late`: the same where a mark tells the cost of the next step.
* `Algorithm.Accounts c a r t`: what the counters say in `t`, one formula for each algorithm.
* `Algorithm.run_accounted`: so they do wherever a run gets.
-/

namespace RootFinding

open Action

variable {σ R K X : Type}

/-! ## Runs -/

namespace Run

variable [Scalar R] [Entry R K] {M : Type} {S : Strategy σ R K X} {c : Setup σ R K}
  {mark : Run σ R K X → M → Run σ R K X → Prop} {r r₀ t : Run σ R K X} {marks : List M}

/-- From `r₀` the run has got to the last argument by active steps that have not failed, with the
given marks in turn; `mark r m t` says that `m` is a mark of the step from `r` to `t`. -/
inductive Chronicle (S : Strategy σ R K X) (c : Setup σ R K)
    (mark : Run σ R K X → M → Run σ R K X → Prop) (r₀ : Run σ R K X) :
    List M → Run σ R K X → Prop
  | start : Chronicle S c mark r₀ [] r₀
  | headline {marks : List M} {r : Run σ R K X} (before : Chronicle S c mark r₀ marks r) :
    Chronicle S c mark r₀ marks (r.headed S)
  | step {marks : List M} {m : M} {r t : Run σ R K X} (before : Chronicle S c mark r₀ marks r)
    (active : r.isActive) (stepped : (S.step c).eval r = (.ok (), t)) (marked : mark r m t) :
    Chronicle S c mark r₀ (marks ++ [m]) (recorded c r.u t)

/-- What holds at first, is indifferent to the text, and survives every step that has not failed,
holds wherever a run has got without a failure. -/
theorem Leads.going {I : Run σ R K X → Prop} (hS : S.Proceeds c) (h : Leads S c r₀ t)
    (hr : r₀.error = none) (ht : t.error = none) (start : I r₀)
    (headline : ∀ s, I s → I (s.headed S))
    (step : ∀ s t, I s → s.isActive → (S.step c).eval s = (.ok (), t) → I (recorded c s.u t)) :
    I t := by
  induction h with
  | refl => exact start
  | headline _ ih => exact headline _ (ih ht)
  | @step r t before active hstep ih =>
    obtain ⟨s, hs, rfl⟩ := step_going hstep ht
    exact step r s (ih (before.error_eq_none hS hr (stopped_of_isActive active))) active hs

theorem Leads.chronicle (hS : S.Proceeds c) (h : Leads S c r₀ t) (hr : r₀.error = none)
    (ht : t.error = none)
    (hmark : ∀ r, (S.step c).Ends r (fun _ t => ∃ m, mark r m t) (fun _ _ => True)) :
    ∃ marks, Chronicle S c mark r₀ marks t := by
  refine h.going (I := fun t => ∃ marks, Chronicle S c mark r₀ marks t) hS hr ht ⟨[], .start⟩
    (fun s hs => ?_) (fun s t hs active hst => ?_)
  · obtain ⟨marks, hs⟩ := hs
    exact ⟨marks, hs.headline⟩
  · obtain ⟨marks, hs⟩ := hs
    obtain ⟨m, hm⟩ := (hmark s).ok hst
    exact ⟨marks ++ [m], hs.step active hst hm⟩

theorem Chronicle.steps_eq (hS : S.Proceeds c) (h : Chronicle S c mark r₀ marks t) :
    t.steps = r₀.steps + marks.length := by
  induction h with
  | start => rfl
  | headline _ ih => exact ih
  | step _ _ stepped _ ih =>
    obtain ⟨b, tested⟩ := (hS _).ok stepped
    rw [recorded_steps, tested.steps_eq, ih, List.length_append]
    rfl

/-- The cost of a run is that of its steps, where the mark of a step tells its cost. -/
theorem Chronicle.spends (cost : M → Stats) (h : Chronicle S c mark r₀ marks t)
    (hcost : ∀ r m t, mark r m t → r.work.Spends (cost m) t.work) :
    r₀.work.Spends (Stats.total (marks.map cost)) t.work := by
  induction h with
  | start => exact .refl _
  | headline _ ih => exact ih
  | step _ _ _ marked ih =>
    rw [List.map_append, List.map_singleton, Stats.total_concat, recorded_work]
    exact ih.trans (hcost _ _ _ marked)

/-- The cost of a run, where the mark of a step tells whether the next one begins anew, and this in
turn tells the cost of that one. The last mark is still without effect. -/
theorem Chronicle.spends_late {mark : Run σ R K X → Bool → Run σ R K X → Prop} {marks : List Bool}
    (renew : X → Bool) (cost : Bool → Stats) (h : Chronicle S c mark r₀ marks t)
    (hcost : ∀ r m t, (S.step c).eval r = (.ok (), t) → mark r m t →
      r.work.Spends (cost (renew r.ext)) t.work ∧ renew t.ext = m) :
    r₀.work.Spends (Stats.total ((renew r₀.ext :: marks).dropLast.map cost)) t.work := by
  -- the induction needs that the mark left out is the one in force
  suffices hpast : ∃ past, renew r₀.ext :: marks = past ++ [renew t.ext] ∧
      r₀.work.Spends (Stats.total (past.map cost)) t.work by
    obtain ⟨past, hpast, hspends⟩ := hpast
    rwa [hpast, List.dropLast_concat]
  induction h with
  | start => exact ⟨[], rfl, .refl _⟩
  | headline _ ih => exact ih
  | @step marks m r t _ _ stepped marked ih =>
    obtain ⟨past, hpast, hspends⟩ := ih
    obtain ⟨hstep, hm⟩ := hcost _ _ _ stepped marked
    refine ⟨past ++ [renew r.ext], ?_, ?_⟩
    · rw [recorded_ext, hm, ← hpast]
      rfl
    · rw [List.map_append, List.map_singleton, Stats.total_concat, recorded_work]
      exact hspends.trans hstep

end Run

/-! ## Starts -/

section Starts

variable [Scalar R] [Entry R K]

/-- The linear system of a run has done nothing at its start. -/
theorem Algorithm.start_fresh {a : Algorithm σ R K} {c : Setup σ R K} {u fu : Vec K}
    {system : LinearSystem R K} {ext : a.State}
    (h : a.strategy.start c u fu = .ok (system, ext)) :
    ∃ method krylov, system = .fresh method krylov := by
  cases a with
  | newton a => exact ⟨_, (SystemChoice.system_ok (Newton.start_ok h).system).1⟩
  | pseudoTransient a => exact ⟨_, (SystemChoice.system_ok (PseudoTransient.start_ok h).system).1⟩
  | trustRegion a => exact ⟨_, (SystemChoice.system_ok (TrustRegion.start_ok h).system).1⟩
  | levenbergMarquardt a =>
    exact ⟨_, (SystemChoice.system_ok (LevenbergMarquardt.start_ok h).system).1⟩
  | spectralResidual a => exact ⟨_, _, (SpectralResidual.start_ok h).system⟩

/-- A run starts with one evaluation behind it. -/
theorem Algorithm.start_stats {a : Algorithm σ R K} {c : Setup σ R K} {world : σ}
    {r : Run σ R K a.State} (h : Run.start a.strategy c world = .ok r) :
    r.work.Tidy ∧ r.work.stats = { evaluations := 1 } ∧ r.steps = 0 := by
  obtain ⟨fu, work, system, ext, started⟩ := Run.start_ok h
  obtain ⟨method, krylov, hsystem⟩ := start_fresh started.prepared
  have hspends := (c.problem.evaluate_spends _ _).ok started.residual
  have hholdings := ((c.problem.evaluate_holdings _).ends _).ok started.residual
  have hempty : (Run.emptyWorkspace world : Workspace σ R K).Tidy :=
    ⟨by simp [Run.emptyWorkspace], fun _ => rfl⟩
  have hunchosen : (Run.emptyWorkspace world : Workspace σ R K).IsDirect := by
    simp [Workspace.IsDirect, Run.emptyWorkspace, LinearSystem.fresh]
  have hdirect : work.IsDirect := hunchosen.of_holdings hholdings
  have hstats : work.stats = { evaluations := 1 } := hspends.stats hempty hdirect
  rw [started.eq, hsystem]
  refine ⟨⟨(hspends.tidy hempty).formed, fun _ => rfl⟩, ?_, rfl⟩
  have hevaluations : work.evaluations = 1 := congrArg Stats.evaluations hstats
  have hjacobians : work.jacobians = 0 := congrArg Stats.jacobians hstats
  exact Stats.ext hevaluations hjacobians rfl rfl rfl

omit [Scalar R] [Entry R K] in
/-- The counters of a run, by the cost since its start. -/
theorem Run.stats_eq {r t : Run σ R K X} {k : Stats} (hr : r.work.Tidy)
    (hstats : r.work.stats = { evaluations := 1 }) (hdirect : t.work.IsDirect)
    (h : r.work.Spends k t.work) :
    t.stats = { evaluations := k.evaluations + 1, jacobians := k.jacobians
                factorizations := k.factorizations, solves := k.solves, steps := t.steps } := by
  have h := h.stats hr hdirect
  rw [hstats] at h
  have hfield : ∀ f : Stats → Nat, f t.work.stats = f ({ evaluations := 1 } + k) := fun f =>
    congrArg f h
  exact Stats.ext ((hfield (·.evaluations)).trans (Nat.add_comm ..))
    ((hfield (·.jacobians)).trans (Nat.zero_add _))
    ((hfield (·.factorizations)).trans (Nat.zero_add _))
    ((hfield (·.solves)).trans (Nat.zero_add _)) rfl

end Starts

/-! ## The counters of a run -/

/-- A run that has got from its start `r` to `t` uses a direct method: the one that its linear
system was set up with, or the one that this has chosen with its first matrix. -/
def Run.IsDirect (r t : Run σ R K X) : Prop :=
  (∃ M ∈ r.work.system.method, M.IsDirect) ∨ t.work.IsDirect

theorem Run.IsDirect.of_spends {r t : Run σ R K X} {k : Stats} (h : IsDirect r t)
    (hspends : r.work.Spends k t.work) : t.work.IsDirect := by
  rcases h with ⟨M, hM, hdirect⟩ | h
  · exact hspends.isDirect hM hdirect
  · exact h

section Counters

variable [Scalar R] [Entry R K] {c : Setup σ R K}

namespace Newton

/-- What a Newton run has spent that has got from `r` to `t` without a failure and has made `m`
Jacobians on the way. -/
structure Spent (a : Newton σ R K) (r t : Run σ R K (State σ R K)) (m : Nat) : Prop where
  search : t.ext.search = r.ext.search
  reuse : t.ext.jacobians.reuse = a.reuse
  le : m ≤ t.steps
  all : a.reuse = false → m = t.steps
  spends : r.work.Spends
    { evaluations := t.steps, jacobians := m, factorizations := m, solves := t.steps } t.work

variable {a : Newton σ R K} {r s t : Run σ R K (State σ R K)} {m : Nat}

theorem Spent.step (hB : c.backend.Frames) (hjacobian : c.problem.jacobian.isSome)
    (hsearch : r.ext.search.method = .none) (h : Spent a r s m)
    (hst : (a.step c).eval s = (.ok (), t)) :
    Spent a r (Run.recorded c s.u t) (m + (NeedsJacobian c s).toNat) := by
  obtain ⟨s', hstepped⟩ := (step_stepped s).ok hst
  obtain ⟨b, htested⟩ := (a.proceeds c s).ok hst
  obtain ⟨way, -, hext⟩ := hstepped.ext
  have hsteps : (Run.recorded c s.u t).steps = s.steps + 1 := by
    rw [Run.recorded_steps, htested.steps_eq]
  have hle := Bool.toNat_le (NeedsJacobian c s)
  refine ⟨?_, ?_, ?_, fun hfalse => ?_, ?_⟩
  · rw [Run.recorded_ext, hext]
    cases hstepped.renewed <;> exact h.search
  · rw [Run.recorded_ext, hstepped.previous.2, h.reuse]
  · rw [hsteps]
    exact Nat.add_le_add h.le hle
  · have hneeded : NeedsJacobian c s = true := by
      simp [NeedsJacobian, JacobianSettings.needsRebuild, h.reuse, hfalse]
    rw [hsteps, hneeded, h.all hfalse]
    rfl
  · rw [hsteps, Run.recorded_work]
    exact h.spends.trans ((a.step_spends hB hjacobian (h.search ▸ hsearch)).ok hst)

theorem run_spends {world : σ} (hB : c.backend.Frames) (hjacobian : c.problem.jacobian.isSome)
    (hplain : ∀ s, a.search.search = .ok s → s.method = .none)
    (hstart : Run.start a.strategy c world = .ok r) (h : Run.Leads a.strategy c r t)
    (ht : t.error = none) : ∃ m, Spent a r t m := by
  have hsteps : r.steps = 0 := Run.start_steps hstart
  have hprepared := start_ok (Run.start_prepared hstart)
  refine h.going (I := fun t => ∃ m, Spent a r t m) (a.proceeds c) (Run.start_error hstart) ht
    ⟨0, rfl, hprepared.reuse, Nat.zero_le _, fun _ => hsteps.symm, ?_⟩
    (fun s hs => ?_) (fun s t hs _ hst => ?_)
  · rw [hsteps]
    exact .refl _
  · obtain ⟨m, hm⟩ := hs
    exact ⟨m, hm.search, hm.reuse, hm.le, hm.all, hm.spends⟩
  · obtain ⟨m, hm⟩ := hs
    exact ⟨_, hm.step hB hjacobian (hplain _ hprepared.search) hst⟩

end Newton

theorem PseudoTransient.run_spends {a : PseudoTransient R} (hB : c.backend.Frames)
    (hjacobian : c.problem.jacobian.isSome) {r t : Run σ R K (State R K)} (hr : r.error = none)
    (hsteps : r.steps = 0) (h : Run.Leads a.strategy c r t) (ht : t.error = none) :
    r.work.Spends
      { evaluations := t.steps, jacobians := t.steps, factorizations := t.steps
        solves := t.steps } t.work := by
  refine h.going (I := fun t => r.work.Spends
    { evaluations := t.steps, jacobians := t.steps, factorizations := t.steps
      solves := t.steps } t.work) (a.proceeds c) hr ht ?_ (fun _ hs => hs) (fun s t hs _ hst => ?_)
  · rw [hsteps]
    exact .refl _
  · obtain ⟨b, htested⟩ := (a.proceeds c s).ok hst
    rw [Run.recorded_steps, Run.recorded_work, htested.steps_eq]
    exact hs.trans ((step_spends hB hjacobian s).ok hst)

/-- How often something is renewed that is renewed in the first step and after each one that was
taken. -/
def renewals : List Bool → Nat
  | [] => 0
  | taken => 1 + taken.dropLast.count true

theorem renewals_eq (taken : List Bool) : renewals taken = (true :: taken).dropLast.count true := by
  cases taken with
  | nil => rfl
  | cons b taken =>
    rw [List.dropLast_cons_of_ne_nil (List.cons_ne_nil b taken), List.count_cons_self]
    exact Nat.add_comm ..

theorem sum_toNat (l : List Bool) : (l.map Bool.toNat).sum = l.count true := by
  induction l with
  | nil => rfl
  | cons b l ih => cases b <;> simp [ih, Nat.add_comm]

/-- A step of a trust region run is marked by whether its trial was accepted. -/
theorem TrustRegion.step_marked (r : Run σ R K (State R K)) :
    (step c).Ends r (fun _ t => ∃ b x s, Verdict c r x s b t) (fun _ _ => True) := by
  refine (step_ends r).mono (fun _ t h => ?_) (fun _ _ _ => trivial)
  obtain ⟨x, s, b, hverdict⟩ := h
  exact ⟨b, x, s, hverdict⟩

theorem TrustRegion.run_spends {a : TrustRegion R} (hB : c.backend.Frames)
    (hjacobian : c.problem.jacobian.isSome) {r t : Run σ R K (State R K)} (hr : r.ext.renew = true)
    {accepted : List Bool}
    (h : Run.Chronicle a.strategy c (fun r b t => ∃ x s, Verdict c r x s b t) r accepted t) :
    r.work.Spends
      { evaluations := accepted.length
        jacobians := renewals accepted
        factorizations := renewals accepted
        solves := renewals accepted } t.work := by
  have hspends := h.spends_late State.renew
    (fun b => { evaluations := 1, jacobians := b.toNat, factorizations := b.toNat
                solves := b.toNat })
    fun r b t _ hmark => by
      obtain ⟨x, s, hverdict⟩ := hmark
      exact ⟨hverdict.spends hB hjacobian, by rw [hverdict.ext]⟩
  rw [hr] at hspends
  rw [renewals_eq, ← sum_toNat]
  simpa [Stats.total, Function.comp_def] using hspends

/-- A step of a Levenberg-Marquardt run is marked by whether it was taken. -/
theorem LevenbergMarquardt.step_marked (a : LevenbergMarquardt R) (r : Run σ R K (State R K)) :
    (a.step c).Ends r (fun _ t => ∃ b J A s, Stepped a c r J A s b t) (fun _ _ => True) := by
  refine (step_stepped r).mono (fun _ t h => ?_) (fun _ _ _ => trivial)
  obtain ⟨J, A, s, b, hstepped⟩ := h
  exact ⟨b, J, A, s, hstepped⟩

theorem LevenbergMarquardt.run_spends {a : LevenbergMarquardt R} (hB : c.backend.Frames)
    (hjacobian : c.problem.jacobian.isSome) (hplain : a.geodesic.active = false)
    {r t : Run σ R K (State R K)} (hr : r.ext.renew = true) {taken : List Bool}
    (h : Run.Chronicle a.strategy c (fun r b t => ∃ J A s, Stepped a c r J A s b t) r taken t) :
    r.work.Spends
      { evaluations := taken.length, jacobians := renewals taken, factorizations := taken.length
        solves := taken.length } t.work := by
  have hspends := h.spends_late State.renew
    (fun b => { evaluations := 1, jacobians := b.toNat, factorizations := 1, solves := 1 })
    fun r b t hst hmark => by
      obtain ⟨J, A, s, hstepped⟩ := hmark
      obtain ⟨gradient, velocity, hext⟩ := hstepped.ext
      exact ⟨(step_spends hB hjacobian hplain r).ok hst, by rw [hext]⟩
  rw [hr] at hspends
  rw [renewals_eq, ← sum_toNat]
  simpa [Stats.total, Function.comp_def] using hspends

theorem SpectralResidual.run_spends {a : SpectralResidual σ R K} {r t : Run σ R K (State R)}
    {places : List Place} (h : Run.Chronicle a.strategy c (Found a c) r places t) :
    r.work.Spends { evaluations := (places.map Place.trials).sum } t.work := by
  have hspends := h.spends (fun p => { evaluations := p.trials })
    fun r p t hfound => hfound.spends
  simpa [Stats.total, Function.comp_def] using hspends

namespace Algorithm

/-- A way to solve in which the counters follow from the steps: without a line search and without a
second order correction, and with a Jacobian of the caller's for those that use one. -/
def IsPlain (p : Problem σ R K) : Algorithm σ R K → Prop
  | newton a => p.jacobian.isSome ∧ ∀ s, a.search.search = .ok s → s.method = .none
  | pseudoTransient _ => p.jacobian.isSome
  | trustRegion _ => p.jacobian.isSome
  | levenbergMarquardt a => p.jacobian.isSome ∧ a.geodesic.active = false
  | spectralResidual _ => True

/-- What the counters say in a state `t` that a run has got to from `r` without a failure. -/
def Accounts (c : Setup σ R K) : (a : Algorithm σ R K) → (r t : Run σ R K a.State) → Prop
  | newton a => fun _ t => ∃ m ≤ t.steps, (a.reuse = false → m = t.steps) ∧ t.stats =
      { evaluations := t.steps + 1, jacobians := m, factorizations := m, solves := t.steps
        steps := t.steps }
  | pseudoTransient _ => fun _ t => t.stats =
      { evaluations := t.steps + 1, jacobians := t.steps, factorizations := t.steps
        solves := t.steps, steps := t.steps }
  | trustRegion a => fun r t => ∃ accepted : List Bool, accepted.length = t.steps ∧
      Run.Chronicle a.strategy c
        (fun r b t => ∃ x s, TrustRegion.Verdict c r x s b t) r accepted t ∧ t.stats =
        { evaluations := t.steps + 1, jacobians := renewals accepted
          factorizations := renewals accepted, solves := renewals accepted, steps := t.steps }
  | levenbergMarquardt a => fun r t => ∃ taken : List Bool, taken.length = t.steps ∧
      Run.Chronicle a.strategy c
        (fun r b t => ∃ J A s, LevenbergMarquardt.Stepped a c r J A s b t) r taken t ∧ t.stats =
        { evaluations := t.steps + 1, jacobians := renewals taken, factorizations := t.steps
          solves := t.steps, steps := t.steps }
  | spectralResidual a => fun r t => ∃ places : List SpectralResidual.Place,
      places.length = t.steps ∧
      Run.Chronicle a.strategy c (SpectralResidual.Found a c) r places t ∧ t.stats =
        { evaluations := (places.map SpectralResidual.Place.trials).sum + 1, steps := t.steps }

variable {a : Algorithm σ R K} {world : σ} {r t : Run σ R K a.State}

theorem accounts_of_leads (hB : c.backend.Frames) (ha : a.IsPlain c.problem)
    (hstart : Run.start a.strategy c world = .ok r) (h : Run.Leads a.strategy c r t)
    (ht : t.error = none) (hdirect : Run.IsDirect r t) : a.Accounts c r t := by
  obtain ⟨htidy, hstats, hsteps⟩ := start_stats hstart
  have hr : r.error = none := Run.start_error hstart
  have hcounters : ∀ {k : Stats}, r.work.Spends k t.work → t.stats =
      { evaluations := k.evaluations + 1, jacobians := k.jacobians
        factorizations := k.factorizations, solves := k.solves, steps := t.steps } :=
    fun hspends => Run.stats_eq htidy hstats (hdirect.of_spends hspends) hspends
  have hcounted : ∀ {M : Type} {mark : Run σ R K a.State → M → Run σ R K a.State → Prop}
      {marks : List M}, Run.Chronicle a.strategy c mark r marks t → marks.length = t.steps :=
    fun hmarks => by rw [hmarks.steps_eq (a.proceeds c), hsteps, Nat.zero_add]
  cases a with
  | newton a =>
    obtain ⟨m, hm⟩ := a.run_spends hB ha.1 ha.2 hstart h ht
    exact ⟨m, hm.le, hm.all, hcounters hm.spends⟩
  | pseudoTransient a =>
    exact hcounters (a.run_spends hB ha hr hsteps h ht)
  | trustRegion a =>
    have hrenew := (TrustRegion.start_ok (Run.start_prepared hstart)).renew
    obtain ⟨accepted, hchronicle⟩ := h.chronicle (a.proceeds c) hr ht TrustRegion.step_marked
    have hlength := hcounted hchronicle
    have hspends := a.run_spends hB ha hrenew hchronicle
    rw [hlength] at hspends
    exact ⟨accepted, hlength, hchronicle, hcounters hspends⟩
  | levenbergMarquardt a =>
    have hrenew := (LevenbergMarquardt.start_ok (Run.start_prepared hstart)).renew
    obtain ⟨taken, hchronicle⟩ := h.chronicle (a.proceeds c) hr ht a.step_marked
    have hlength := hcounted hchronicle
    have hspends := a.run_spends hB ha.1 ha.2 hrenew hchronicle
    rw [hlength] at hspends
    exact ⟨taken, hlength, hchronicle, hcounters hspends⟩
  | spectralResidual a =>
    obtain ⟨places, hchronicle⟩ := h.chronicle (a.proceeds c) hr ht fun r => a.step_found r
    exact ⟨places, hcounted hchronicle, hchronicle,
      hcounters (SpectralResidual.run_spends hchronicle)⟩

/-- The solution of a solve shows the counters of the state that its run has got to. -/
theorem solve_stats {o : Outcome σ R K} (h : a.solve c world = .ok o)
    (hstart : Run.start a.strategy c world = .ok r) :
    ∃ t, Run.Leads a.strategy c r t ∧ o.solution.stats = t.stats ∧ o.solution.error = t.error ∧
      o.world = t.work.world := by
  rw [solve_eq, outcome] at h
  rcases hs : a.strategy.solve c world with e | ⟨s, t⟩
  · rw [hs] at h
    cases h
  · rw [hs] at h
    obtain ⟨e, hreaches, rfl, hsolution⟩ := Strategy.solve_ok hs
    obtain ⟨r', hstart', hleads⟩ := hreaches
    cases hstart.symm.trans hstart'
    cases h
    obtain ⟨-, -, -, herror, hstats, -⟩ := Run.solution_ok hsolution
    exact ⟨e, hleads, hstats, herror, rfl⟩

/-- **The counters account for the work of every run.**  With the caller's Jacobian, a direct method
and neither a line search nor a second order correction the counters of a run that has not failed
follow from its steps. A Newton step solves and evaluates once, and some steps make a Jacobian and
factorise it, all of them without reuse. A pseudo-transient step does all of this once. A trust
region run makes its model, with a factorisation and a solve, in the first step and after each one
that was accepted; a Levenberg-Marquardt run makes only its Jacobian so, and factorises and solves
in each step. A spectral residual run evaluates its trials and does nothing else. In every run,
failed or not, the caller has counted as many calls of the residual as the solve. -/
theorem run_accounted (a : Algorithm σ R K) (c : Setup σ R K) (world : σ) (hB : c.backend.Frames)
    {r : Run σ R K a.State} (hstart : Run.start a.strategy c world = .ok r) :
    (a.IsPlain c.problem → ∀ t, Run.Leads a.strategy c r t → t.error = none → Run.IsDirect r t →
      a.Accounts c r t) ∧
    (∀ calls, c.problem.Counts calls → a.Spares calls → ∀ t, Run.Leads a.strategy c r t →
      calls t.work.world = calls world + t.stats.evaluations ∧
        ∀ e t', (Run.step a.strategy c).eval t = (.error e, t') →
          calls t'.work.world = calls world + t'.stats.evaluations) ∧
    ∀ o, a.solve c world = .ok o → ∃ t, Run.Leads a.strategy c r t ∧
      o.solution.stats = t.stats ∧ o.solution.error = t.error ∧ o.world = t.work.world :=
  ⟨fun ha _ h ht hdirect => accounts_of_leads hB ha hstart h ht hdirect,
    fun _ hp ha _ h => evaluations_counted hB hp ha hstart h, fun _ ho => solve_stats ho hstart⟩

end Algorithm

end Counters

/-! ### A run of two steps -/

/-- The residual of the identity, with a Jacobian that is too steep. The caller counts the calls. -/
def countedProblem : Problem Nat Numeral Number where
  residual := .returning fun t calls => (.ok t, calls + 1)
  guess := ⟨[1], .ofList [.real 1.0]⟩
  jacobian := some fun _ calls => (.ok (.number (.real 2.0)), calls)

def countedSetup : Setup Nat Numeral Number where
  problem := countedProblem
  options :=
    { abstol := 1e-8, reltol := 1e-8, termination := .standard, norm := Vec.norm }
  backend := .standard

def countedNewton : Algorithm Nat Numeral Number := .newton (.standard .direct)

theorem countedProblem_counts : countedProblem.Counts id where
  returning f hf x calls := by
    cases hf
    rfl
  filling f hf := by cases hf
  jacobian jac hjac x calls := by
    cases hjac
    rfl

theorem countedNewton_accounted :
    countedSetup.backend.Frames ∧ countedNewton.IsPlain countedProblem ∧
      countedProblem.Counts id ∧ countedNewton.Spares id ∧
      ∃ r t, Run.start countedNewton.strategy countedSetup 0 = .ok r ∧
        Run.Leads countedNewton.strategy countedSetup r t ∧ t.error = none ∧ Run.IsDirect r t ∧
        t.stats =
          { evaluations := 3, jacobians := 2, factorizations := 2, solves := 2, steps := 2 } ∧
        t.work.world = 3 := by
  have hplain : countedNewton.IsPlain countedProblem :=
    ⟨rfl, fun s hs => by cases hs; rfl⟩
  have hspares : countedNewton.Spares id := fun s f hs hf => by
    cases hs
    cases hf
  have h : (Run.start countedNewton.strategy countedSetup 0).toOption.any (fun r =>
      let x := (Run.loop countedNewton.strategy countedSetup 2).eval r
      x.1.isOk && x.2.error.isNone && x.2.work.system.method == some .lu && x.2.steps == 2) =
        true := by
    decide +kernel
  rcases hstart : Run.start countedNewton.strategy countedSetup 0 with e | r
  · rw [hstart] at h
    cases h
  rcases hloop : (Run.loop countedNewton.strategy countedSetup 2).eval r with ⟨e | _, t⟩
  · simp [hstart, hloop, Except.toOption, Except.isOk, Except.toBool] at h
  simp only [hstart, hloop, Except.toOption, Option.any_some, Bool.and_eq_true, beq_iff_eq,
    Option.isNone_iff_eq_none] at h
  obtain ⟨⟨⟨-, herror⟩, hmethod⟩, hsteps⟩ := h
  have hleads : Run.Leads countedNewton.strategy countedSetup r t :=
    (Run.loop_leads .refl 2).ok hloop
  have hdirect : t.work.IsDirect := fun M hM => by
    cases hmethod.symm.trans hM
    trivial
  obtain ⟨haccounts, hcalls, -⟩ :=
    Algorithm.run_accounted countedNewton countedSetup 0 Backend.standard_frames hstart
  obtain ⟨m, -, hall, hstats⟩ := haccounts hplain t hleads herror (.inr hdirect)
  rw [hall rfl, hsteps] at hstats
  refine ⟨Backend.standard_frames, hplain, countedProblem_counts, hspares, r, t, rfl, hleads,
    herror, .inr hdirect, hstats, ?_⟩
  have hworld := (hcalls id countedProblem_counts hspares t hleads).1
  exact hworld.trans (congrArg (id 0 + ·) (congrArg Stats.evaluations hstats))

end RootFinding
