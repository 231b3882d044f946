import RootFinding.Proofs.Agreement
import RootFinding.Proofs.Endings

/-!
# Safe modes and plain ones

A safe termination mode stops a solve earlier than the plain mode with the same bound, and does
nothing else to it.

* `Setup.plain`: a setup with the plain mode in place of a safe one.
* `Run.Paired r t`: a run of a setup and one of its plain setup that differ in their checks only.
* `Algorithm.step_paired`, `Algorithm.loop_paired`: they stay paired until the first one fails.
* `Algorithm.step_raises`: a step that fails otherwise than in its check fails in both.
* `Algorithm.solve_plain`: what this says about the two solves.
-/

namespace RootFinding

open Action

variable {σ R K X : Type}

/-- The mode with the same bound that does not watch the progress of a solve. -/
def TerminationMode.plain : TerminationMode → TerminationMode
  | absSafe => absNorm
  | relSafe => relNorm
  | mode => mode

@[simp] theorem TerminationMode.plain_isRelative (m : TerminationMode) :
    m.plain.isRelative = m.isRelative := by
  cases m <;> rfl

@[simp] theorem TerminationMode.plain_isSafe (m : TerminationMode) : m.plain.isSafe = false := by
  cases m <;> rfl

theorem TerminationMode.plain_of_norm {m : TerminationMode} (habs : m ≠ .abs) (hrel : m ≠ .rel) :
    m.plain = .absNorm ∨ m.plain = .relNorm := by
  cases m with
  | abs => exact (habs rfl).elim
  | rel => exact (hrel rfl).elim
  | absNorm | absSafe => exact .inl rfl
  | relNorm | relSafe => exact .inr rfl

def Termination.plain (t : Termination R) : Termination R := { t with mode := t.mode.plain }

/-- The setup with the plain mode in place of a safe one. -/
def Setup.plain (c : Setup σ R K) : Setup σ R K :=
  { c with options := { c.options with termination := c.options.termination.plain } }

/-! ## Checks -/

/-- Checks by the same tolerances, the second ones in the plain mode of the first ones. -/
structure Checker.Paired (k k' : Checker R K) : Prop where
  settings : k'.settings = k.settings.plain
  abstol : k'.abstol = k.abstol
  reltol : k'.reltol = k.reltol
  norm : k'.norm = k.norm
  lastFinite : k'.lastFinite = k.lastFinite

variable [Scalar R]

section Checks

variable [Entry R K] {k k' : Checker R K}

open Checker

theorem Checker.Paired.criterion (h : k.Paired k') (fu u : Vec K) :
    k'.criterion fu u = k.criterion fu u := by
  unfold Checker.criterion
  simp only [h.settings, h.abstol, h.reltol, h.norm, Termination.plain,
    TerminationMode.plain_isRelative]

theorem Checker.Paired.entriesConverged (h : k.Paired k') (fu u : Vec K) :
    k'.entriesConverged fu u = k.entriesConverged fu u := by
  unfold Checker.entriesConverged
  simp only [h.settings, h.abstol, h.reltol, Termination.plain, TerminationMode.plain_isRelative]

omit [Entry R K] in
/-- What a safe mode checks besides leaves the checks paired. -/
theorem Checker.checkProgress_paired (objective criterion : R) (u : Vec K) (h : k.Paired k') :
    (checkProgress objective criterion u).Ends k (fun _ l => l.Paired k') (fun _ _ => True) := by
  have hremembered : ∀ {l : Checker R K} best bestNorm history, l.Paired k' →
      Checker.Paired { l with best, bestNorm, history } k' := fun _ _ _ hl =>
    ⟨hl.settings, hl.abstol, hl.reltol, hl.norm, hl.lastFinite⟩
  simp only [checkProgress, ends_bind, ends_get]
  split <;> split <;> simp only [ends_bind, ends_set, ends_get, ends_modify, ends_fail]
  · split
    · trivial
    · exact hremembered _ _ _ h
  · split
    · trivial
    · exact hremembered _ _ _ h

/-- A check at finite values in a mode that looks at the entries. -/
theorem Checker.check_eval_entries {fu u : Vec K} (previous : Vec K) {b : Bool}
    (hfinite : (fu.isFinite && u.isFinite) = true)
    (hmode : k.settings.mode = .abs ∨ k.settings.mode = .rel)
    (hb : k.entriesConverged fu u = .ok b) :
    (Checker.check fu u previous).eval k = (.ok b, { k with lastFinite := u }) := by
  rcases hmode with hmode | hmode <;>
    simp [Checker.check, eval_bind, hfinite, hmode, hb]

/-- A check at finite values in a plain mode that looks at the norm. -/
theorem Checker.check_eval_norm {fu u : Vec K} (previous : Vec K) {bound : R}
    (hfinite : (fu.isFinite && u.isFinite) = true)
    (hmode : k.settings.mode = .absNorm ∨ k.settings.mode = .relNorm)
    (hbound : k.criterion fu u = .ok bound) :
    (Checker.check fu u previous).eval k =
      (.ok (decide (k.norm fu ≤ bound)), { k with lastFinite := u }) := by
  have hsafe : k.isSafe = false := by
    unfold Checker.isSafe
    rcases hmode with hmode | hmode <;> rw [hmode] <;> rfl
  by_cases hle : k.norm fu ≤ bound <;> rcases hmode with hmode | hmode <;>
    simp [Checker.check, eval_bind, hfinite, hmode, hbound, hle, hsafe]

/-- Where the first check looks at the entries, the paired one does so too. -/
theorem Checker.Paired.eval_entries {fu u : Vec K} (previous : Vec K) {b : Bool} (h : k.Paired k')
    (hfinite : (fu.isFinite && u.isFinite) = true)
    (hmode : k.settings.mode = .abs ∨ k.settings.mode = .rel)
    (hb : k.entriesConverged fu u = .ok b) :
    (Checker.check fu u previous).eval k' = (.ok b, { k' with lastFinite := u }) := by
  have hplain : k'.settings.mode = k.settings.mode.plain := congrArg (·.mode) h.settings
  refine check_eval_entries previous hfinite ?_ ((h.entriesConverged fu u).trans hb)
  rcases hmode with hmode | hmode <;> rw [hmode] at hplain
  · exact .inl hplain
  · exact .inr hplain

/-- A check that answers does so in the plain mode too, and with the same answer. -/
theorem Checker.check_paired (fu u previous : Vec K) (h : k.Paired k') :
    (Checker.check fu u previous).Ends k
      (fun b l => ∃ l', (Checker.check fu u previous).eval k' = (.ok b, l') ∧ l.Paired l')
      (fun _ _ => True) := by
  have hlast : Checker.Paired { k with lastFinite := u } { k' with lastFinite := u } :=
    ⟨h.settings, h.abstol, h.reltol, h.norm, rfl⟩
  conv => arg 1; unfold Checker.check
  simp only [ends_bind, ends_get]
  split
  next => simp only [ends_bind, ends_ofFault, ends_fail, implies_true, and_self]
  next hfinite =>
    replace hfinite : (fu.isFinite && u.isFinite) = true := by simpa using hfinite
    simp only [ends_bind, ends_set]
    split
    next hm =>
      rw [ends_ofFault]
      exact ⟨fun b hb => ⟨_, h.eval_entries previous hfinite (.inl hm) hb, hlast⟩,
        fun _ _ => trivial⟩
    next hm =>
      rw [ends_ofFault]
      exact ⟨fun b hb => ⟨_, h.eval_entries previous hfinite (.inr hm) hb, hlast⟩,
        fun _ _ => trivial⟩
    next habs hrel =>
      simp only [ends_bind, ends_ofFault]
      refine ⟨fun bound hbound => ?_, fun _ _ => trivial⟩
      have hplain : k'.settings.mode = .absNorm ∨ k'.settings.mode = .relNorm := by
        rw [h.settings]
        exact TerminationMode.plain_of_norm habs hrel
      have hcheck := check_eval_norm previous hfinite hplain ((h.criterion fu u).trans hbound)
      split
      next hle =>
        rw [decide_eq_true (by rwa [h.norm])] at hcheck
        exact ⟨_, hcheck, hlast⟩
      next hle =>
        rw [decide_eq_false (by rwa [h.norm])] at hcheck
        split
        next =>
          rw [ends_bind]
          exact (checkProgress_paired _ _ u hlast).mono (fun _ l hl => ⟨_, hcheck, hl⟩)
            (fun _ _ _ => trivial)
        next => exact ⟨_, hcheck, hlast⟩

end Checks

/-! ## Runs -/

/-- Runs that differ in their checks only, which are paired. -/
def Run.Paired (r t : Run σ R K X) : Prop :=
  ∃ checker, r.checker.Paired checker ∧ t = { r with checker }

section Runs

open Run

variable {r t : Run σ R K X}

theorem Run.paired_overlooks : Overlooks (Run.Paired : Run σ R K X → Run σ R K X → Prop) where
  eq := by
    intro r t h
    obtain ⟨k, -, rfl⟩ := h
    exact ⟨k, r.styles, r.trace, r.printed, rfl⟩
  blind := by
    intro f r t hf h
    obtain ⟨k, hk, rfl⟩ := h
    have hr : f r = (f r).aside r.checker r.styles r.trace r.printed := hf _ _ _ _ r
    refine ⟨k, ?_, ?_⟩
    · rw [show (f r).checker = r.checker from congrArg (·.checker) hr]
      exact hk
    · refine (hf k r.styles r.trace r.printed r).trans ?_
      rw [hr]
      rfl
  printing := by
    intro r t text h
    obtain ⟨k, hk, rfl⟩ := h
    exact ⟨k, hk, rfl⟩

variable [Entry R K]

/-- A check of a run that answers does so in the paired run. -/
theorem Run.check_paired (h : Run.Paired r t) :
    (check : Stepping σ R K X Bool).Ends r
      (fun b s => ∃ s', check.eval t = (.ok b, s') ∧ Run.Paired s s') (fun _ _ => True) := by
  obtain ⟨k, hk, rfl⟩ := h
  simp only [check, ends_bind, ends_get, ends_within]
  refine (Checker.check_paired r.fu r.u r.previous hk).mono (fun b l hl => ?_)
    (fun _ _ _ => trivial)
  obtain ⟨l', hl', hpaired⟩ := hl
  have hcheck : check.eval { r with checker := k } = (.ok b,
      if b then { r with checker := l', code := .success, stopped := true }
      else { r with checker := l' }) := by
    simp only [check, eval_bind, eval_get, eval_within, hl']
    cases b <;> rfl
  cases b with
  | true => exact ⟨_, hcheck, l', hpaired, rfl⟩
  | false => exact ⟨_, hcheck, l', hpaired, rfl⟩

theorem Run.recorded_paired (c : Setup σ R K) (before : Vec K) (h : Run.Paired r t) :
    Run.Paired (recorded c before r) (recorded c.plain before t) := by
  obtain ⟨k, hk, rfl⟩ := h
  refine ⟨k, by rwa [recorded_checker], ?_⟩
  by_cases hs : c.options.storeTrace <;>
    simp [recorded, record, eval_bind, Run.print, Setup.plain, hs]

end Runs

/-! ## Steps -/

variable [Entry R K]

theorem SpectralResidual.search_plain (a : SpectralResidual σ R K) (c : Setup σ R K)
    (q : Search R K) (fuel : Nat) : a.search c.plain q fuel = a.search c q fuel := by
  induction fuel with
  | zero => rfl
  | succ fuel ih =>
    funext ahead behind t
    simp only [search, ih]
    rfl

namespace Algorithm

variable {a : Algorithm σ R K} {c : Setup σ R K} {r s t : Run σ R K a.State}

/-- Nothing that a step does before its check depends on the mode. -/
theorem approach_plain (a : Algorithm σ R K) (c : Setup σ R K) :
    a.approach c.plain = a.approach c := by
  cases a with
  | spectralResidual a =>
    simp only [approach, SpectralResidual.approach, SpectralResidual.search_plain]
    rfl
  | newton _ => rfl
  | pseudoTransient _ => rfl
  | trustRegion _ => rfl
  | levenbergMarquardt _ => rfl

/-- A step that returns does so in the paired run. -/
theorem step_paired (h : Run.Paired r t) (hs : (a.strategy.step c).eval r = (.ok (), s)) :
    ∃ s', (a.strategy.step c.plain).eval t = (.ok (), s') ∧ Run.Paired s s' := by
  rw [step_parts, eval_bind_ok] at hs
  obtain ⟨⟨⟩, r₁, happroach, hs⟩ := hs
  obtain ⟨b, r₂, hcheck, hafter⟩ := eval_bind_ok.1 hs
  obtain ⟨t₁, happroach', h₁⟩ :=
    (approach_respects c Run.paired_overlooks r t h).eval happroach
  obtain ⟨t₂, hcheck', h₂⟩ := (Run.check_paired h₁).ok hcheck
  obtain ⟨s', hafter', hpaired⟩ :=
    (aftermath_respects Run.paired_overlooks b r₂ t₂ h₂).eval hafter
  refine ⟨s', ?_, hpaired⟩
  rw [step_parts, approach_plain, eval_bind_ok]
  exact ⟨(), t₁, happroach', eval_bind_ok.2 ⟨b, t₂, hcheck', hafter'⟩⟩

/-- From `r` a step of the algorithm fails with `e` in its check. -/
def FailsCheck (a : Algorithm σ R K) (c : Setup σ R K) (r : Run σ R K a.State)
    (e : Thrown R K) : Prop :=
  ∃ s t, (a.approach c).eval r = (.ok (), s) ∧ Run.check.eval s = (.error e, t)

/-- A step that fails otherwise than in its check fails in the paired run with the same error. -/
theorem step_raises {e : Thrown R K} (h : Run.Paired r t)
    (hs : (a.strategy.step c).eval r = (.error e, s)) (hcheck : ¬a.FailsCheck c r e) :
    ∃ s', (a.strategy.step c.plain).eval t = (.error e, s') ∧ Run.Paired s s' := by
  rw [step_parts, eval_bind_error] at hs
  rw [step_parts, approach_plain]
  rcases hs with happroach | ⟨⟨⟩, r₁, happroach, hs⟩
  · obtain ⟨s', happroach', hpaired⟩ :=
      (approach_respects c Run.paired_overlooks r t h).eval happroach
    exact ⟨s', eval_bind_error.2 (.inl happroach'), hpaired⟩
  · rcases eval_bind_error.1 hs with hfailed | ⟨b, r₂, hchecked, hafter⟩
    · exact (hcheck ⟨r₁, s, happroach, hfailed⟩).elim
    · obtain ⟨t₁, happroach', h₁⟩ :=
        (approach_respects c Run.paired_overlooks r t h).eval happroach
      obtain ⟨t₂, hchecked', h₂⟩ := (Run.check_paired h₁).ok hchecked
      obtain ⟨s', hafter', hpaired⟩ :=
        (aftermath_respects Run.paired_overlooks b r₂ t₂ h₂).eval hafter
      refine ⟨s', ?_, hpaired⟩
      exact eval_bind_error.2 (.inr ⟨(), t₁, happroach',
        eval_bind_error.2 (.inr ⟨b, t₂, hchecked', hafter'⟩)⟩)

end Algorithm

/-! ## Steps of the loop that fail -/

/-- A vector with as many entries as the guess has places has a residual, or evaluating it is a
failure of the solve. -/
theorem Problem.evaluate_no_fault (p : Problem σ R K) {u : Vec K}
    (hu : u.size = Tensor.sizeOf p.guess.shape) (w : Workspace σ R K) :
    (p.evaluate u).Ends w (fun _ _ => True) (fun e _ => ∀ f, e ≠ .fault f) := by
  have hx : p.restructure u = .ok ⟨p.guess.shape, u⟩ := if_pos hu
  unfold Problem.evaluate
  rw [ends_bind, ends_ofFault_ok hx]
  simp only [ends_bind, ends_modify, ends_mapError, ends_pure]
  exact ends_true.mono (fun _ _ _ => trivial) (fun _ _ _ _ => Thrown.ofResidual_ne_fault)

namespace Run

variable {S : Strategy σ R K X} {c : Setup σ R K} {r s t : Run σ R K X}

/-- The iterates of a run have as many entries as the guess has places. -/
structure Sized (c : Setup σ R K) (r : Run σ R K X) : Prop where
  u : r.u.size = Tensor.sizeOf c.problem.guess.shape
  remembers : r.checker.Remembers fun v => v.size = Tensor.sizeOf c.problem.guess.shape

theorem Tested.sized {b : Bool} (h : Tested c b r t) (hr : r.Sized c) : t.Sized c := by
  have hu := h.moved.size_eq hr.u
  exact ⟨hu, ((Checker.check_remembers _ (fun _ _ => hu) hr.remembers).ok h.checked).2.2⟩

theorem Broken.sized (h : Broken c r t) (hr : r.Sized c) : t.Sized c := by
  have hu := h.moved.size_eq hr.u
  refine ⟨hu, ?_⟩
  rcases h.checker with hkept | ⟨x, -, hx⟩
  · rw [hkept]
    exact hr.remembers
  · cases x with
    | ok b => exact ((Checker.check_remembers _ (fun _ _ => hu) hr.remembers).ok hx).2.2
    | error e => exact (Checker.check_remembers _ (fun _ _ => hu) hr.remembers).error hx

theorem StepsTo.sized (h : StepsTo S c r t) (hr : r.Sized c) : t.Sized c := by
  have hrecorded : ∀ {s : Run σ R K X}, s.Sized c → (recorded c r.u s).Sized c := fun hs =>
    ⟨by rw [recorded_u]; exact hs.u, by rw [recorded_checker]; exact hs.remembers⟩
  cases h with
  | on s _ tested => exact hrecorded (tested.sized hr)
  | converges s _ tested => exact hrecorded (tested.sized hr)
  | fails f s s' _ broken ended =>
    have hs := broken.sized hr
    exact hrecorded ⟨ended.size_eq hs.u, ended.checker_eq ▸ hs.remembers⟩

theorem Leads.sized (hS : S.Proceeds c) (h : Leads S c r t) (hr : r.Sized c) : t.Sized c :=
  h.invariant hr (fun _ hs => ⟨hs.u, hs.remembers⟩) fun _ _ hs _ ht => (hS.stepsTo ht).sized hs

/-- A step of the loop fails with an error: a failure of the solve is stored, a fault leaves the
step. -/
def StepFails (S : Strategy σ R K X) (c : Setup σ R K) (r : Run σ R K X) : Thrown R K → Prop
  | .failure f => ∃ t, (Run.step S c).eval r = (.ok (), t) ∧ t.error = some f
  | .fault f => ∃ t, (Run.step S c).eval r = (.error (.fault f), t)

/-- A step of the loop stores the failure that the step of the strategy ends with. -/
theorem step_of_failure {f : Failure R K} (hs : (S.step c).eval r = (.error (.failure f), s))
    (hsized : s.Sized c) : ∃ t, (Run.step S c).eval r = (.ok (), t) ∧ t.error = some f := by
  have hend : (endWith c f).Ends s (fun _ t => t.error = some f) (fun _ _ => False) := by
    refine (endWith_ends c f s).mono (fun _ t ht => ht.error_eq) (fun e _ he => ?_)
    obtain ⟨fault, w, -, hfault, -⟩ := he
    exact (c.problem.evaluate_no_fault hsized.remembers.fallback s.work).error hfault fault rfl
  rcases ht : (endWith c f).eval s with ⟨_ | _, t⟩
  · exact (hend.error ht).elim
  · obtain ⟨trace, printed, hrecord⟩ := record_eval c r.u t
    refine ⟨recorded c r.u t, ?_, (recorded_error c r.u t).trans (hend.ok ht)⟩
    simp [Run.step, eval_bind, hs, ht, recorded, hrecord]

theorem step_of_fault {f : Fault} (hs : (S.step c).eval r = (.error (.fault f), s)) :
    (Run.step S c).eval r = (.error (.fault f), s) := by
  simp [Run.step, eval_bind, hs]

/-- A step of the loop that fails does so because the step of the strategy does. -/
theorem StepFails.failed {e : Thrown R K} (hS : S.Proceeds c) (hsized : r.Sized c)
    (hr : r.error = none) (h : r.StepFails S c e) : ∃ s, (S.step c).eval r = (.error e, s) := by
  cases e with
  | failure f =>
    obtain ⟨t, ht, herror⟩ := h
    rcases step_cases ht with ⟨s, hs, rfl⟩ | ⟨f', s, s', hs, ended, rfl⟩
    · obtain ⟨b, tested⟩ := (hS r).ok hs
      rw [recorded_error, tested.error_eq, hr] at herror
      cases herror
    · rw [recorded_error, ended.error_eq] at herror
      cases herror
      exact ⟨s, hs⟩
  | fault f =>
    obtain ⟨t, ht⟩ := h
    rcases hs : (S.step c).eval r with ⟨(f' | f') | _, s⟩
    · obtain ⟨t', ht', -⟩ := step_of_failure hs (((hS r).error hs).sized hsized)
      cases ht.symm.trans ht'
    · cases ht.symm.trans (step_of_fault hs)
      exact ⟨_, rfl⟩
    · cases ht.symm.trans (step_of_ok hs)

/-- The steps of the loop fail just as those of the strategy. -/
theorem stepFails_iff {e : Thrown R K} (hS : S.Proceeds c) (hsized : r.Sized c)
    (hr : r.error = none) : r.StepFails S c e ↔ ∃ s, (S.step c).eval r = (.error e, s) := by
  refine ⟨fun h => h.failed hS hsized hr, fun h => ?_⟩
  obtain ⟨s, hs⟩ := h
  cases e with
  | failure f => exact step_of_failure hs (((hS r).error hs).sized hsized)
  | fault f => exact ⟨s, step_of_fault hs⟩

end Run

/-! ## Solves -/

section Solves

variable {S : Strategy σ R K X} {c : Setup σ R K} {world : σ}

theorem Run.start_sized {r : Run σ R K X} (h : Run.start S c world = .ok r) : r.Sized c := by
  have hsize := (Run.start_answered h).size_eq
  rw [Run.start_u h] at hsize
  rw [Run.start_eq h]
  exact ⟨hsize, hsize, hsize⟩

end Solves

namespace Algorithm

variable {a : Algorithm σ R K} {c : Setup σ R K} {r s t : Run σ R K a.State} {world : σ}

/-- Until the first run fails, the loop keeps the paired run beside it. -/
theorem loop_paired (fuel : Nat) (h : Run.Paired r t) (hr : r.error = none) :
    (Run.loop a.strategy c fuel).Ends r
      (fun _ s => (s.error = none →
          ∃ s', (Run.loop a.strategy c.plain fuel).eval t = (.ok (), s') ∧ Run.Paired s s') ∧
        ∀ f, s.error = some f → s.code = f.returnCode)
      (fun _ _ => True) := by
  induction fuel generalizing r t with
  | zero => exact ⟨fun _ => ⟨t, rfl, h⟩, fun f hf => by rw [hr] at hf; cases hf⟩
  | succ fuel ih =>
    have hactive : t.isActive = r.isActive := by
      obtain ⟨k, -, rfl⟩ := h
      rfl
    simp only [Run.loop, ends_bind, ends_get, eval_bind, eval_get, hactive]
    split
    next active =>
      rw [ends_bind]
      refine ends_iff.2 ⟨fun _ r₁ hr₁ => ?_, fun _ _ _ => trivial⟩
      rcases Run.step_cases hr₁ with ⟨s, hs, rfl⟩ | ⟨f, s, s', hs, ended, rfl⟩
      · obtain ⟨s', hs', hpaired⟩ := step_paired h hs
        obtain ⟨b, tested⟩ := (a.proceeds c r).ok hs
        have hstep := Run.step_of_ok hs'
        have hu : t.u = r.u := by
          obtain ⟨k, -, rfl⟩ := h
          rfl
        rw [hu] at hstep
        simp only [eval_bind, hstep]
        exact ih (Run.recorded_paired c r.u hpaired)
          (by rw [Run.recorded_error, tested.error_eq, hr])
      · have hidle : (Run.recorded c r.u s').isActive = false :=
          Run.isActive_of_stopped (by rw [Run.recorded_stopped, ended.stopped_eq])
        refine (Run.loop_idle fuel hidle).mono (fun _ t ht => ?_) (fun _ _ _ => trivial)
        rw [ht, Run.recorded_error, Run.recorded_code, ended.error_eq, ended.code_eq]
        exact ⟨fun h => (Option.some_ne_none f h).elim, fun g hg => by cases hg; rfl⟩
    next => exact ⟨fun _ => ⟨t, rfl, h⟩, fun f hf => by rw [hr] at hf; cases hf⟩

theorem start_paired (h : Run.start a.strategy c world = .ok r) :
    ∃ t, Run.start a.strategy c.plain world = .ok t ∧ Run.Paired r t := by
  obtain ⟨fu, work, system, ext, started⟩ := Run.start_ok h
  have hprepared : a.strategy.start c.plain c.problem.guess.entries fu = .ok (system, ext) := by
    rw [← started.prepared]
    cases a <;> rfl
  have started' : Run.Started a.strategy c.plain world
      (Run.ofStart c.plain { work with system } fu ext) fu work system ext :=
    ⟨started.residual, started.size, hprepared, started.limit, rfl⟩
  rw [started.eq]
  exact ⟨_, started'.start_eq, (Run.ofStart c.plain { work with system } fu ext).checker,
    ⟨rfl, rfl, rfl, rfl, rfl⟩, rfl⟩

/-- A solution without an error is that of the plain mode. -/
theorem outcome_plain {o : Outcome σ R K} (ho : a.solve c world = .ok o)
    (hend : o.solution.code = .success ∨
      o.solution.code = .maxIters ∧ o.solution.error = none) :
    a.solve c.plain world = .ok o := by
  rw [solve_eq, outcome] at ho ⊢
  rcases hs : a.strategy.solve c world with e | ⟨s, x⟩
  · simp [hs, Except.map] at ho
  simp only [hs, Except.map, Except.ok.injEq] at ho
  obtain ⟨r, hr, hfinish⟩ := Strategy.solve_eq_ok.1 hs
  obtain ⟨t, ht, hpaired⟩ := start_paired hr
  have hnone : (r.headed a.strategy).error = none := (Run.start_error hr : r.error = none)
  have hheaded : Run.Paired (r.headed a.strategy) (t.headed a.strategy) := by
    obtain ⟨k, hk, rfl⟩ := hpaired
    exact ⟨k, hk, rfl⟩
  obtain ⟨e, ⟨hplain, hcode⟩, rfl, hsolution⟩ :=
    (Run.finish_of_loop (loop_paired _ hheaded hnone)).ok hfinish
  obtain ⟨-, -, hscode, hserror, -, -⟩ := Run.solution_ok hsolution
  have herror : e.error = none := by
    rw [← ho] at hend
    rcases hend with hsuccess | ⟨-, hnone⟩
    · rcases hf : e.error with _ | f
      · rfl
      · have hfinal : e.finalCode = f.returnCode := by
          rw [← hcode f hf]
          exact if_neg (hcode f hf ▸ f.returnCode_ne_default)
        exact (f.returnCode_ne_success ((hfinal.symm.trans hscode.symm).trans hsuccess)).elim
    · exact hserror.symm.trans hnone
  obtain ⟨e', he', hpairede⟩ := hplain herror
  have hfuel : (t.maxiters - t.steps).toNat = (r.maxiters - r.steps).toNat := by
    obtain ⟨k, -, rfl⟩ := hpaired
    rfl
  obtain ⟨k, -, rfl⟩ := hpairede
  have hsolve : a.strategy.solve c.plain world =
      .ok (s, Run.closed c.plain { e with checker := k }) :=
    Strategy.solve_eq_ok.2 ⟨t, ht, Run.finish_eval (hfuel ▸ he') hsolution⟩
  rw [hsolve, ← ho]
  rfl

/-- Compares a setup with the one that has the plain mode in place of a safe one: the runs differ in
their checks only until the first one fails; a step that fails otherwise than in its check fails in
both with the same error; and a solution without an error is that of both. -/
theorem solve_plain (a : Algorithm σ R K) (c : Setup σ R K) (world : σ) :
    (∀ r, Run.start a.strategy c world = .ok r →
      ∃ t, Run.start a.strategy c.plain world = .ok t ∧
        ∀ fuel r', (Run.loop a.strategy c fuel).eval r = (.ok (), r') → r'.error = none →
          ∃ t', (Run.loop a.strategy c.plain fuel).eval t = (.ok (), t') ∧
            t' = { r' with checker := t'.checker } ∧
            ∀ e, r'.StepFails a.strategy c e → ¬a.FailsCheck c r' e →
              t'.StepFails a.strategy c.plain e) ∧
      ∀ o, a.solve c world = .ok o →
        (o.solution.code = .success ∨
          o.solution.code = .maxIters ∧ o.solution.error = none) →
        a.solve c.plain world = .ok o := by
  refine ⟨fun r hr => ?_, fun o ho hend => outcome_plain ho hend⟩
  obtain ⟨t, ht, hpaired⟩ := start_paired hr
  refine ⟨t, ht, fun fuel r' hr' herror => ?_⟩
  obtain ⟨t', ht', hpaired'⟩ :=
    ((loop_paired fuel hpaired (Run.start_error hr)).ok hr').1 herror
  have hr'sized : r'.Sized c :=
    ((Run.loop_leads .refl fuel).ok hr').sized (a.proceeds c) (Run.start_sized hr)
  have ht'sized : t'.Sized c.plain :=
    ((Run.loop_leads .refl fuel).ok ht').sized (a.proceeds c.plain) (Run.start_sized ht)
  have hsame : t' = { r' with checker := t'.checker } := by
    obtain ⟨k, -, rfl⟩ := hpaired'
    rfl
  refine ⟨t', ht', hsame, fun e he hcheck => ?_⟩
  obtain ⟨s, hs⟩ := (Run.stepFails_iff (a.proceeds c) hr'sized herror).1 he
  obtain ⟨s', hs', -⟩ := step_raises hpaired' hs hcheck
  refine (Run.stepFails_iff (a.proceeds c.plain) ht'sized ?_).2 ⟨s', hs'⟩
  rw [hsame]
  exact herror

end Algorithm

/-! ## A residual that gives up -/

/-- A residual that is larger behind its start and gives up further back. -/
def recedingResidual (x : Number) : Except (Thrown Numeral Number) Number :=
  if x.re < -2.0 then .error (.failure (.ofMessage .iterationLimit "too far"))
  else .ok (.real (if x.re < -0.5 then 2.0 else 1.0))

def recedingProblem : Problem Unit Numeral Number where
  residual := .returning fun t w =>
    ((recedingResidual (t.entries.toList.headD (.real 0.0))).map fun y => ⟨t.shape, .ofList [y]⟩, w)
  guess := ⟨[1], .ofList [.real 0.0]⟩
  jacobian := some fun _ w => (.ok (.number (.real 1.0)), w)

/-- The setup of the problem in the safe mode with an absolute bound, for at most `limit` steps. -/
def recedingSetup (limit : Int) : Setup Unit Numeral Number :=
  { plainSetup recedingProblem with
    options := { (plainSetup recedingProblem).options with
      maxiters := limit
      termination := { Termination.standard with mode := .absSafe } } }

def recedingNewton : Algorithm Unit Numeral Number := .newton (.standard .direct)

/-- Two solves are compared: the return code of the first, whether it has failed, the counters of
both, and whether the unknowns are numerically the same. -/
def comparison (limit : Int) : Option (ReturnCode × Bool × Stats × Stats × Bool) := do
  let o ← (recedingNewton.solve (recedingSetup limit) ()).toOption
  let o' ← (recedingNewton.solve (recedingSetup limit).plain ()).toOption
  return (o.solution.code, o.solution.error.isSome, o.solution.stats, o'.solution.stats,
    o'.solution.u.entries.same o.solution.u.entries)

theorem comparison_some {limit : Int} {code : ReturnCode} {failed same : Bool} {s s' : Stats}
    (h : comparison limit = some (code, failed, s, s', same)) :
    ∃ o o', recedingNewton.solve (recedingSetup limit) () = .ok o ∧
      recedingNewton.solve (recedingSetup limit).plain () = .ok o' ∧ o.solution.code = code ∧
      o.solution.error.isSome = failed ∧ o.solution.stats = s ∧ o'.solution.stats = s' ∧
      o'.solution.u.entries.same o.solution.u.entries = same := by
  unfold comparison at h
  rcases ho : recedingNewton.solve (recedingSetup limit) () with e | o
  · simp [ho, Except.toOption] at h
  · rcases ho' : recedingNewton.solve (recedingSetup limit).plain () with e | o'
    · simp [ho, ho', Except.toOption] at h
    · simp only [ho, ho', Except.toOption, Option.bind_eq_bind, Option.bind_some, Option.pure_def,
        Option.some.injEq, Prod.mk.injEq] at h
      exact ⟨o, o', rfl, rfl, h.1, h.2.1, h.2.2.1, h.2.2.2.1, h.2.2.2.2⟩

/-- With one step the limit ends both solves in the same way. -/
theorem recedingProblem_alike :
    ∃ o, recedingNewton.solve (recedingSetup 1) () = .ok o ∧ o.solution.code = .maxIters ∧
      recedingNewton.solve (recedingSetup 1).plain () = .ok o := by
  have h : comparison 1 = some (.maxIters, false, ⟨2, 1, 1, 1, 1⟩, ⟨2, 1, 1, 1, 1⟩, true) := by
    decide +kernel
  obtain ⟨o, o', ho, -, hcode, herror, -⟩ := comparison_some h
  exact ⟨o, ho, hcode, (recedingNewton.solve_plain (recedingSetup 1) ()).2 o ho
    (.inr ⟨hcode, by simpa using herror⟩)⟩

/-- When the residual gives up in the name of the limit, both solves end with the code of the limit,
and only the safe one goes back to its best iterate. -/
theorem recedingProblem_apart :
    ∃ o o', recedingNewton.solve (recedingSetup 5) () = .ok o ∧
      recedingNewton.solve (recedingSetup 5).plain () = .ok o' ∧ o.solution.code = .maxIters ∧
      o'.solution.stats ≠ o.solution.stats ∧
      o'.solution.u.entries.same o.solution.u.entries = false := by
  have h : comparison 5 = some (.maxIters, true, ⟨4, 2, 2, 2, 2⟩, ⟨3, 2, 2, 2, 2⟩, false) := by
    decide +kernel
  obtain ⟨o, o', ho, ho', hcode, -, hs, hs', hsame⟩ := comparison_some h
  exact ⟨o, o', ho, ho', hcode, by rw [hs, hs']; decide, hsame⟩

end RootFinding
