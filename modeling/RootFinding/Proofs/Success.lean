import RootFinding.Proofs.Consistency
import RootFinding.Proofs.ExactMatrix

/-!
# What success says

A caller may take single steps of a run, stop it and change its limit, and then let it solve. If
the solution is successful, its iterate meets the criterion of the termination test, with two
exceptions: a run that was stopped by hand before its limit, without a code of its own, counts as
successful; and a run that has converged keeps its code in a step that is taken all the same.

* `Options.Met`: the criterion of the termination test. `Checker.check_met`: a check answers
  whether it is met, at finite values only.
* `Run.perform`, `Run.after`: the operations on a run.
* `Run.Honest`: a run that is successful meets the criterion. Every operation keeps this, apart
  from a step of a run that is successful already.
* `Algorithm.success_met`: what a successful solution says, after any operations.
-/

namespace RootFinding

open Action

variable {σ R K X : Type} [Scalar R] [Entry R K] {S : Strategy σ R K X} {c : Setup σ R K}

/-! ## The criterion -/

/-- The criterion of the termination test for a residual and its iterate. -/
def Options.Met (o : Options R K) (fu u : Vec K) : Prop :=
  match o.termination.mode with
  | .abs => ∀ f ∈ fu.toList, (Entry.abs f : R) ≤ o.abstol
  | .rel => ∃ sum below, Vec.align (· + ·) fu u = .ok sum ∧
      Vec.align (fun f s => decide ((Entry.abs f : R) ≤ o.reltol * Entry.abs s)) fu sum =
        .ok below ∧ ∀ b ∈ below.toList, b = true
  | .absNorm | .absSafe => o.norm fu ≤ o.abstol
  | .relNorm | .relSafe => ∃ sum, Vec.align (· + ·) fu u = .ok sum ∧
      o.norm fu ≤ o.reltol * o.norm sum

/-- The criterion is met, at finite values. -/
structure Options.Converged (o : Options R K) (fu u : Vec K) : Prop where
  residual : fu.isFinite
  iterate : u.isFinite
  met : o.Met fu u

namespace Checker

/-- The checks test what the options ask for. -/
structure Follows (k : Checker R K) (o : Options R K) : Prop where
  settings : k.settings = o.termination
  abstol : k.abstol = o.abstol
  reltol : k.reltol = o.reltol
  norm : k.norm = o.norm

variable {k : Checker R K} {o : Options R K} {fu u : Vec K}

/-- The bound of the modes that look at the norm of the residual. -/
theorem Follows.criterion_met (h : k.Follows o) {bound : R} (hbound : k.criterion fu u = .ok bound)
    (habs : o.termination.mode ≠ .abs) (hrel : o.termination.mode ≠ .rel) :
    o.norm fu ≤ bound ↔ o.Met fu u := by
  unfold criterion at hbound
  rw [h.settings, h.abstol, h.reltol, h.norm] at hbound
  unfold Options.Met
  cases hmode : o.termination.mode with
  | abs => exact (habs hmode).elim
  | rel => exact (hrel hmode).elim
  | absNorm | absSafe =>
    rw [hmode] at hbound
    cases hbound
    rfl
  | relNorm | relSafe =>
    simp only [hmode, TerminationMode.isRelative, if_true] at hbound
    obtain ⟨sum, hsum, hbound⟩ := Fault.bind_ok hbound
    cases hbound
    simp [hsum]

theorem Follows.entriesConverged_met (h : k.Follows o) {b : Bool}
    (hb : k.entriesConverged fu u = .ok b)
    (hmode : o.termination.mode = .abs ∨ o.termination.mode = .rel) :
    b = true ↔ o.Met fu u := by
  unfold entriesConverged at hb
  rw [h.settings, h.abstol, h.reltol] at hb
  unfold Options.Met
  rcases hmode with hmode | hmode
  · rw [hmode] at hb ⊢
    cases hb
    exact List.all_eq_true.trans (forall₂_congr fun _ _ => decide_eq_true_iff)
  · simp only [hmode, TerminationMode.isRelative, if_true] at hb ⊢
    obtain ⟨sum, hsum, hb⟩ := Fault.bind_ok hb
    obtain ⟨below, hbelow, hb⟩ := Fault.bind_ok hb
    cases hb
    refine ⟨fun hall => ⟨sum, below, hsum, hbelow, List.all_eq_true.1 hall⟩, fun hmet => ?_⟩
    rcases hmet with ⟨sum', below', hsum', hbelow', hall⟩
    rw [hsum] at hsum'
    cases hsum'
    rw [hbelow] at hbelow'
    cases hbelow'
    exact List.all_eq_true.2 hall

omit [Entry R K] in
theorem checkProgress_follows (objective criterion : R) (u : Vec K) (h : k.Follows o) :
    (checkProgress objective criterion u).Ends k (fun _ k' => k'.Follows o)
      (fun _ k' => k'.Follows o) := by
  have hbest : Follows { k with best := u, bestNorm := objective } o :=
    ⟨h.settings, h.abstol, h.reltol, h.norm⟩
  have hremembered : ∀ (k : Checker R K) (history : List R), k.Follows o →
      Follows { k with history } o := fun k history h => ⟨h.settings, h.abstol, h.reltol, h.norm⟩
  simp only [checkProgress, ends_bind, ends_get]
  split <;> split <;> simp only [ends_bind, ends_set, ends_get, ends_modify, ends_fail]
  · exact hbest
  · split <;> exact hremembered _ _ hbest
  · exact h
  · split <;> exact hremembered _ _ h

/-- A check answers whether the criterion is met, and at finite values only. -/
theorem check_met (previous : Vec K) (h : k.Follows o) :
    (Checker.check fu u previous).Ends k
      (fun b k' => k'.Follows o ∧ fu.isFinite ∧ u.isFinite ∧ (b = true ↔ o.Met fu u))
      (fun _ k' => k'.Follows o) := by
  simp only [Checker.check, ends_bind, ends_get]
  split
  next =>
    simp only [ends_bind, ends_ofFault, ends_fail]
    exact ⟨fun _ _ => h, fun _ _ => h⟩
  next hfinite =>
    obtain ⟨hfu, hu⟩ : fu.isFinite = true ∧ u.isFinite = true := by simpa using hfinite
    have hk : Follows { k with lastFinite := u } o := ⟨h.settings, h.abstol, h.reltol, h.norm⟩
    simp only [ends_bind, ends_set]
    split
    next hmode =>
      simp only [ends_ofFault]
      exact ⟨fun b hb => ⟨hk, hfu, hu, h.entriesConverged_met hb (.inl (h.settings ▸ hmode))⟩,
        fun _ _ => hk⟩
    next hmode =>
      simp only [ends_ofFault]
      exact ⟨fun b hb => ⟨hk, hfu, hu, h.entriesConverged_met hb (.inr (h.settings ▸ hmode))⟩,
        fun _ _ => hk⟩
    next habs hrel =>
      simp only [ends_bind, ends_ofFault]
      refine ⟨fun bound hbound => ?_, fun _ _ => hk⟩
      have hmet := h.criterion_met hbound (h.settings ▸ habs) (h.settings ▸ hrel)
      rw [← h.norm] at hmet
      split
      next hle => exact ⟨hk, hfu, hu, iff_of_true rfl (hmet.1 hle)⟩
      next hnot =>
        have hunmet : false = true ↔ o.Met fu u :=
          iff_of_false Bool.false_ne_true fun h => hnot (hmet.2 h)
        split
        · rw [ends_bind]
          exact (checkProgress_follows _ _ _ hk).mono (fun _ _ h => ⟨h, hfu, hu, hunmet⟩)
            (fun _ _ h => h)
        · exact ⟨hk, hfu, hu, hunmet⟩

/-- In exact arithmetic, a residual with an entry that is too large has not converged. -/
theorem entry_check {k : Checker Exact Exact} (hmode : k.settings.mode = .abs)
    (habstol : k.abstol = 1e-8) {n : Nat} {v fu : Vec Exact} {x f : Fin n → ℝ} (hv : v.Reads x)
    (hfu : fu.Reads f) {i : Fin n} (hf : (1e-8 : ℝ) < |f i|) (previous : Vec Exact) :
    (Checker.check fu v previous).Ends k (fun b _ => b = false) (fun _ _ => False) := by
  have hlarge : ¬Entry.abs (Exact.real (f i)) ≤ k.abstol := by
    rw [habstol, Exact.ofScientific_eq]
    exact not_le.2 hf
  have hmem : Exact.real (f i) ∈ fu.toList := by
    rw [hfu]
    exact List.mem_map.2 ⟨f i, List.mem_ofFn.2 ⟨i, rfl⟩, rfl⟩
  have hunmet : Checker.entriesConverged { k with lastFinite := v } fu v = .ok false := by
    simp only [Checker.entriesConverged, hmode, TerminationMode.isRelative, Bool.false_eq_true,
      if_false]
    refine congrArg Except.ok (List.all_eq_false.2 ⟨_, hmem, ?_⟩)
    simpa using hlarge
  simp only [Checker.check, ends_bind, ends_get, hfu.isFinite, hv.isFinite, Bool.and_self,
    Bool.not_true, Bool.false_eq_true, if_false, ends_set, hmode]
  exact (ends_ofFault_ok hunmet).2 rfl

end Checker

/-! ## Steps and the outcome -/

namespace Run

variable {r s t : Run σ R K X} {o : Options R K}

/-- What a step of the loop does to the outcome of a run, whether it returns or raises. -/
inductive Turns (o : Options R K) (r t : Run σ R K X) : Prop
  | keeps (follows : t.checker.Follows o) (code : t.code = r.code) (stopped : t.stopped = r.stopped)
  | converges (follows : t.checker.Follows o) (code : t.code = .success)
    (stopped : t.stopped = true) (converged : o.Converged t.fu t.u)
  | fails (follows : t.checker.Follows o) (f : Failure R K) (code : t.code = f.returnCode)
    (stopped : t.stopped = true)

theorem Tested.follows {b : Bool} (h : Tested c b r t) (hr : r.checker.Follows o) :
    t.checker.Follows o ∧ (b = true → o.Converged t.fu t.u) := by
  obtain ⟨hfollows, hfu, hu, hmet⟩ := (Checker.check_met t.previous hr).ok h.checked
  exact ⟨hfollows, fun hb => ⟨hfu, hu, hmet.1 hb⟩⟩

theorem Broken.follows (h : Broken c r t) (hr : r.checker.Follows o) : t.checker.Follows o := by
  rcases h.checker with hk | ⟨x, -, hchecked⟩
  · rw [hk]
    exact hr
  · cases x with
    | ok b => exact ((Checker.check_met t.previous hr).ok hchecked).1
    | error e => exact (Checker.check_met t.previous hr).error hchecked

theorem StepsTo.turns (h : StepsTo S c r t) (hr : r.checker.Follows o) : Turns o r t := by
  cases h with
  | on s _ tested =>
    refine .keeps ?_ ?_ ?_
    · rw [recorded_checker]
      exact (tested.follows hr).1
    · rw [recorded_code, code_of_status tested.unmet]
    · rw [recorded_stopped, stopped_of_status tested.unmet]
  | converges s _ tested =>
    obtain ⟨hfollows, hconverged⟩ := tested.follows hr
    refine .converges ?_ ?_ ?_ ?_
    · rw [recorded_checker]
      exact hfollows
    · rw [recorded_code, code_of_status tested.met]
      rfl
    · rw [recorded_stopped, stopped_of_status tested.met]
      rfl
    · rw [recorded_fu, recorded_u]
      exact hconverged rfl
  | fails f s s' _ broken ended =>
    refine .fails ?_ f ?_ ?_
    · rw [recorded_checker, ended.checker_eq]
      exact broken.follows hr
    · rw [recorded_code, ended.code_eq]
    · rw [recorded_stopped, ended.stopped_eq]

theorem Raises.turns (h : Raises S c r t) (hr : r.checker.Follows o) : Turns o r t := by
  cases h with
  | strategy f _ broken =>
    exact .keeps (broken.follows hr) (code_of_status broken.status)
      (stopped_of_status broken.status)
  | fallback f s _ broken rest =>
    rw [rest]
    exact .fails (broken.follows hr) f rfl rfl

end Run

theorem Strategy.Proceeds.step_turns (hS : S.Proceeds c) {r : Run σ R K X} {o : Options R K}
    (hr : r.checker.Follows o) :
    (Run.step S c).Ends r (fun _ t => Run.Turns o r t) (fun _ t => Run.Turns o r t) :=
  (hS.step_ends r).mono (fun _ _ h => h.turns hr) (fun _ _ h => h.turns hr)

/-! ## Operations -/

/-- What a caller can do with a run before it is solved. -/
inductive Operation where
  | step
  | setStopped (stopped : Bool)
  | setLimit (limit : Int)
  deriving DecidableEq, Repr

namespace Run

/-- The run after an operation, also where a step raises an error. -/
def perform (S : Strategy σ R K X) (c : Setup σ R K) (r : Run σ R K X) : Operation → Run σ R K X
  | .step => ((Run.step S c).eval r).2
  | .setStopped stopped => { r with stopped }
  | .setLimit limit => { r with maxiters := limit }

/-- The run after some operations. -/
def after (S : Strategy σ R K X) (c : Setup σ R K) (r : Run σ R K X) (ops : List Operation) :
    Run σ R K X :=
  ops.foldl (perform S c) r

/-- How a run can be successful without meeting the criterion: it was stepped on when it was
successful already, by hand or by the loop, or it was stopped by hand before it had a code. -/
inductive Excepted (S : Strategy σ R K X) (c : Setup σ R K) (r : Run σ R K X)
    (ops : List Operation) : Prop
  | resumed (before rest : List Operation) (taken : ops = before ++ .step :: rest)
    (code : (r.after S c before).code = .success)
  | continued (code : (r.after S c ops).code = .success) (active : (r.after S c ops).isActive)
  | stopped (asked : .setStopped true ∈ ops) (stopped : (r.after S c ops).stopped)
    (code : (r.after S c ops).code = .default)
    (room : ((r.after S c ops).steps : Int) < (r.after S c ops).maxiters)

/-- A run that is successful meets the criterion. -/
structure Honest (o : Options R K) (r : Run σ R K X) : Prop where
  follows : r.checker.Follows o
  converged : r.code = .success → o.Converged r.fu r.u

variable {r s t : Run σ R K X} {o : Options R K} {ops : List Operation}

theorem Turns.honest (h : Turns o r t) (hr : r.code ≠ .success) : t.Honest o := by
  cases h with
  | keeps follows code =>
    refine ⟨follows, fun hsuccess => ?_⟩
    rw [code] at hsuccess
    exact (hr hsuccess).elim
  | converges follows _ _ converged => exact ⟨follows, fun _ => converged⟩
  | fails follows f code =>
    refine ⟨follows, fun hsuccess => ?_⟩
    rw [code] at hsuccess
    exact (f.returnCode_ne_success hsuccess).elim

/-- Every operation keeps a run honest, but a step of a run that is successful already. -/
theorem Honest.perform (hS : S.Proceeds c) (hr : r.Honest o) (op : Operation)
    (hop : op = .step → r.code ≠ .success) : (r.perform S c op).Honest o := by
  cases op with
  | step => exact ((hS.step_turns hr.follows).mono (fun _ _ h => h.honest (hop rfl))
      (fun _ _ h => h.honest (hop rfl))).state
  | setStopped b => exact ⟨hr.follows, hr.converged⟩
  | setLimit n => exact ⟨hr.follows, hr.converged⟩

theorem Honest.after (hS : S.Proceeds c) (hr : r.Honest o)
    (hops : ∀ before rest, ops = before ++ .step :: rest → (r.after S c before).code ≠ .success) :
    (r.after S c ops).Honest o := by
  induction ops generalizing r with
  | nil => exact hr
  | cons op ops ih =>
    refine ih (hr.perform hS op fun hop => ?_) fun before rest htaken => ?_
    · exact hops [] ops (by rw [hop, List.nil_append])
    · exact hops (op :: before) rest (by rw [htaken, List.cons_append])

/-- Operations follow the options, and a run that they stop without a code was told to stop. -/
theorem after_stopped (hS : S.Proceeds c) (hr : r.checker.Follows o)
    (hcode : (r.after S c ops).code = .default) (hstopped : (r.after S c ops).stopped = true) :
    (r.code = .default ∧ r.stopped = true) ∨ .setStopped true ∈ ops := by
  induction ops generalizing r with
  | nil => exact .inl ⟨hcode, hstopped⟩
  | cons op ops ih =>
    cases op with
    | step =>
      have hturns : Turns o r (r.perform S c .step) := (hS.step_turns hr).state
      cases hturns with
      | keeps follows code stopped =>
        rcases ih follows hcode hstopped with ⟨hcode', hstopped'⟩ | hmem
        · exact .inl ⟨code.symm.trans hcode', stopped.symm.trans hstopped'⟩
        · exact .inr (List.mem_cons_of_mem _ hmem)
      | converges follows code =>
        rcases ih follows hcode hstopped with ⟨hcode', -⟩ | hmem
        · rw [code] at hcode'
          cases hcode'
        · exact .inr (List.mem_cons_of_mem _ hmem)
      | fails follows f code =>
        rcases ih follows hcode hstopped with ⟨hcode', -⟩ | hmem
        · rw [code] at hcode'
          exact (f.returnCode_ne_default hcode').elim
        · exact .inr (List.mem_cons_of_mem _ hmem)
    | setStopped b =>
      rcases ih (r := { r with stopped := b }) hr hcode hstopped with ⟨-, hb⟩ | hmem
      · cases hb
        exact .inr (List.mem_cons_self ..)
      · exact .inr (List.mem_cons_of_mem _ hmem)
    | setLimit n =>
      rcases ih (r := { r with maxiters := n }) hr hcode hstopped with hr | hmem
      · exact .inl hr
      · exact .inr (List.mem_cons_of_mem _ hmem)

end Run

/-! ## Solutions -/

namespace Run

variable {r e t : Run σ R K X} {o : Options R K} {s : Solution R K}

/-- An honest run in the loop: it is stopped as soon as it has a code. -/
structure Looping (o : Options R K) (r : Run σ R K X) : Prop extends Honest o r where
  unsuccessful : r.isActive → r.code ≠ .success
  unstopped : r.code = .default → r.stopped = false

theorem Looping.step (hS : S.Proceeds c) (hr : r.Looping o) (hactive : r.isActive)
    (h : (Run.step S c).eval r = (.ok (), t)) : t.Looping o := by
  have hturns : Turns o r t := (hS.step_turns hr.follows).ok h
  refine ⟨hturns.honest (hr.unsuccessful hactive), fun hactive' => ?_, fun hdefault => ?_⟩
  · cases hturns with
    | keeps _ code =>
      rw [code]
      exact hr.unsuccessful hactive
    | converges _ _ stopped =>
      rw [isActive_of_stopped stopped] at hactive'
      cases hactive'
    | fails _ f code =>
      rw [code]
      exact f.returnCode_ne_success
  · cases hturns with
    | keeps _ _ stopped => rw [stopped, stopped_of_isActive hactive]
    | converges _ code =>
      rw [code] at hdefault
      cases hdefault
    | fails _ f code =>
      rw [code] at hdefault
      exact (f.returnCode_ne_default hdefault).elim

theorem Looping.leads (hS : S.Proceeds c) (hr : r.Looping o) (h : Leads S c r t) : t.Looping o :=
  h.invariant hr (fun _ hs => ⟨⟨hs.follows, hs.converged⟩, hs.unsuccessful, hs.unstopped⟩)
    (fun _ _ hs hactive hstep => hs.step hS hactive hstep)

/-- A successful solution of a run that is closed meets the criterion, or the run has no code and is
below its limit. -/
theorem Honest.solution (he : e.Honest o) (h : (e.closed c).solution c.problem = .ok s)
    (hcode : s.code = .success) : o.Converged s.residual.entries s.u.entries ∨
      (e.code = .default ∧ (e.steps : Int) < e.maxiters) := by
  obtain ⟨hu, hfu, hfinal, -⟩ := solution_ok h
  have hu : s.u.entries = e.u := hu
  have hfu : s.residual.entries = e.fu := hfu
  have hfinal : e.finalCode = .success := hfinal.symm.trans hcode
  unfold finalCode at hfinal
  split at hfinal
  next hdefault =>
    split at hfinal
    next => cases hfinal
    next hroom => exact .inr ⟨hdefault, by omega⟩
  next =>
    rw [hu, hfu]
    exact .inl (he.converged hfinal)

/-- A successful solution of an honest run meets the criterion, unless the run was stopped without a
code, or the loop has stepped on from a successful state. -/
theorem Honest.finish (hS : S.Proceeds c) (hr : r.Honest o)
    (hunsuccessful : r.isActive → r.code ≠ .success)
    (hfinish : (Run.finish S c).eval r = (.ok s, t)) (hcode : s.code = .success) :
    o.Converged s.residual.entries s.u.entries ∨
      (r.code = .default ∧ r.stopped = true ∧ (r.steps : Int) < r.maxiters) := by
  cases hactive : r.isActive with
  | true =>
    have hlooping : (r.headed S).Looping o :=
      ⟨⟨hr.follows, hr.converged⟩, hunsuccessful, fun _ => stopped_of_isActive hactive⟩
    have hfuel : (r.headed S).maxiters ≤ (r.headed S).steps + (r.maxiters - r.steps).toNat := by
      change r.maxiters ≤ r.steps + _
      omega
    have hloop := (loop_leads (S := S) (c := c) (.refl (r := r.headed S)) _).and
      (loop_inactive hS _ hfuel)
    obtain ⟨e, ⟨hleads, hidle⟩, rfl, hsolution⟩ :=
      (finish_of_loop (hloop.mono (fun _ _ h => h) (fun _ _ _ => trivial))).ok hfinish
    have he : e.Looping o := hlooping.leads hS hleads
    refine (he.solution hsolution hcode).imp_right fun hopen => ?_
    rcases hopen with ⟨hdefault, hroom⟩
    simp [isActive, he.unstopped hdefault] at hidle
    omega
  | false =>
    have hloop : (loop S c (r.maxiters - r.steps).toNat).Ends (r.headed S)
        (fun _ e => e = r.headed S) (fun _ _ => True) :=
      (loop_idle (r := r.headed S) _ hactive).mono (fun _ _ h => h) (fun _ _ _ => trivial)
    obtain ⟨e, rfl, rfl, hsolution⟩ := (finish_of_loop hloop).ok hfinish
    have he : (r.headed S).Honest o := ⟨hr.follows, hr.converged⟩
    refine (he.solution hsolution hcode).imp_right fun hopen => ?_
    have hdefault : r.code = .default := hopen.1
    have hroom : (r.steps : Int) < r.maxiters := hopen.2
    refine ⟨hdefault, ?_, hroom⟩
    simpa [isActive, hroom] using hactive

theorem start_honest {world : σ} (h : Run.start S c world = .ok r) :
    r.Honest c.options ∧ r.code = .default ∧ r.stopped = false := by
  rw [start_eq h]
  exact ⟨⟨⟨rfl, rfl, rfl, rfl⟩, nofun⟩, rfl, rfl⟩

end Run

/-- **What success says.**  After any operations on a run that has started, a successful solution
meets the criterion of the termination test at the iterate and the residual that it shows, unless
the run was stopped by hand before it had a code and before its limit, or a step was taken when it
was successful already. -/
theorem Algorithm.success_met (a : Algorithm σ R K) (c : Setup σ R K) (world : σ)
    (ops : List Operation) {r t : Run σ R K a.State} {s : Solution R K}
    (hstart : Run.start a.strategy c world = .ok r)
    (hfinish : (Run.finish a.strategy c).eval (r.after a.strategy c ops) = (.ok s, t))
    (hcode : s.code = .success) :
    c.options.Converged s.residual.entries s.u.entries ∨ Run.Excepted a.strategy c r ops := by
  have hS : a.strategy.Proceeds c := a.proceeds c
  obtain ⟨hhonest, -, hstopped⟩ := Run.start_honest hstart
  by_cases hresumed : ∃ before rest, ops = before ++ .step :: rest ∧
      (r.after a.strategy c before).code = .success
  · obtain ⟨before, rest, htaken, hsuccess⟩ := hresumed
    exact .inr (.resumed before rest htaken hsuccess)
  by_cases hcontinued : (r.after a.strategy c ops).code = .success ∧
      (r.after a.strategy c ops).isActive
  · exact .inr (.continued hcontinued.1 hcontinued.2)
  have hafter : (r.after a.strategy c ops).Honest c.options :=
    hhonest.after hS fun before rest htaken hsuccess => hresumed ⟨before, rest, htaken, hsuccess⟩
  refine (hafter.finish hS (fun hactive hsuccess => hcontinued ⟨hsuccess, hactive⟩)
    hfinish hcode).imp_right fun hcancelled => ?_
  rcases hcancelled with ⟨hdefault, hhalted, hroom⟩
  rcases Run.after_stopped hS hhonest.follows hdefault hhalted with ⟨-, hfirst⟩ | hasked
  · rw [hstopped] at hfirst
    cases hfirst
  · exact .stopped hasked hhalted hdefault hroom

/-! ## A run that is stopped and a run that goes on -/

/-- A residual that is small around one and large elsewhere. -/
def stepResidual (x : Number) : Number :=
  .real (if 0.5 < x.re ∧ x.re < 1.5 then 1e-9 else 5.0)

/-- The Jacobian is given as the residual itself, so every Newton step goes down by one. -/
def stepProblem : Problem Unit Numeral Number where
  residual := .returning fun t w => (.ok ⟨t.shape, t.entries.map stepResidual⟩, w)
  guess := ⟨[1], .ofList [.real 2.0]⟩
  jacobian := some fun t w =>
    (.ok (.number (stepResidual (t.entries.toList.headD (.real 0.0)))), w)

def stepNewton : Algorithm Unit Numeral Number := .newton (.standard .direct)

/-- The solution of the problem after some operations. -/
def solutionAfter (ops : List Operation) :
    Except (Thrown Numeral Number) (Solution Numeral Number) := do
  let r ← Run.start stepNewton.strategy (plainSetup stepProblem) ()
  ((Run.finish stepNewton.strategy (plainSetup stepProblem)).eval
    (r.after stepNewton.strategy (plainSetup stepProblem) ops)).1

theorem solutionAfter_ok {ops : List Operation} {s : Solution Numeral Number}
    (h : solutionAfter ops = .ok s) :
    ∃ r t, Run.start stepNewton.strategy (plainSetup stepProblem) () = .ok r ∧
      (Run.finish stepNewton.strategy (plainSetup stepProblem)).eval
        (r.after stepNewton.strategy (plainSetup stepProblem) ops) = (.ok s, t) := by
  unfold solutionAfter at h
  rcases hstart : Run.start stepNewton.strategy (plainSetup stepProblem) () with e | r
  · simp [hstart, bind, Except.bind] at h
  · simp only [hstart, bind, Except.bind] at h
    exact ⟨r, _, rfl, Prod.ext h rfl⟩

/-- The return code of the solution after some operations, and whether its residual is within the
tolerance. -/
def outcomeAfter (ops : List Operation) : Option (ReturnCode × Bool) :=
  (solutionAfter ops).toOption.map fun s =>
    (s.code, decide (s.residual.entries.norm ≤ (1e-8 : Numeral)))

theorem outcomeAfter_some {ops : List Operation} {code : ReturnCode} {within : Bool}
    (h : outcomeAfter ops = some (code, within)) :
    ∃ r s t, Run.start stepNewton.strategy (plainSetup stepProblem) () = .ok r ∧
      (Run.finish stepNewton.strategy (plainSetup stepProblem)).eval
        (r.after stepNewton.strategy (plainSetup stepProblem) ops) = (.ok s, t) ∧
      s.code = code ∧
      ((plainSetup stepProblem).options.Met s.residual.entries s.u.entries ↔ within = true) := by
  unfold outcomeAfter at h
  rcases hs : solutionAfter ops with e | s
  · simp [hs, Except.toOption] at h
  · simp only [hs, Except.toOption, Option.map_some, Option.some.injEq, Prod.mk.injEq] at h
    obtain ⟨r, t, hstart, hfinish⟩ := solutionAfter_ok hs
    refine ⟨r, s, t, hstart, hfinish, h.1, ?_⟩
    rw [← h.2, decide_eq_true_iff]
    exact Iff.rfl

/-- A successful run that is left alone meets the criterion. -/
theorem stepProblem_met :
    ∃ r s t, Run.start stepNewton.strategy (plainSetup stepProblem) () = .ok r ∧
      (Run.finish stepNewton.strategy (plainSetup stepProblem)).eval
        (r.after stepNewton.strategy (plainSetup stepProblem) [.setLimit 3, .step]) = (.ok s, t) ∧
      s.code = .success ∧
      ((plainSetup stepProblem).options.Converged s.residual.entries s.u.entries ∨
        Run.Excepted stepNewton.strategy (plainSetup stepProblem) r [.setLimit 3, .step]) := by
  have h : outcomeAfter [.setLimit 3, .step] = some (.success, true) := by decide +kernel
  obtain ⟨r, s, t, hstart, hfinish, hcode, -⟩ := outcomeAfter_some h
  exact ⟨r, s, t, hstart, hfinish, hcode,
    Algorithm.success_met stepNewton (plainSetup stepProblem) () _ hstart hfinish hcode⟩

/-- After some operations the solution is successful and does not meet the criterion. -/
def SucceedsUnmet (ops : List Operation) : Prop :=
  ∃ r s t, Run.start stepNewton.strategy (plainSetup stepProblem) () = .ok r ∧
    (Run.finish stepNewton.strategy (plainSetup stepProblem)).eval
      (r.after stepNewton.strategy (plainSetup stepProblem) ops) = (.ok s, t) ∧
    s.code = .success ∧ ¬(plainSetup stepProblem).options.Met s.residual.entries s.u.entries

theorem succeedsUnmet_of_outcome {ops : List Operation}
    (h : outcomeAfter ops = some (.success, false)) : SucceedsUnmet ops := by
  obtain ⟨r, s, t, hstart, hfinish, hcode, hmet⟩ := outcomeAfter_some h
  exact ⟨r, s, t, hstart, hfinish, hcode, fun hheld => Bool.false_ne_true (hmet.1 hheld)⟩

/-- A run that is stopped before its first step is successful with a large residual, and so is one
that has converged and is stepped on. -/
theorem stepProblem_unmet :
    SucceedsUnmet [.setStopped true] ∧ SucceedsUnmet [.step, .step] :=
  ⟨succeedsUnmet_of_outcome (by decide +kernel), succeedsUnmet_of_outcome (by decide +kernel)⟩

end RootFinding
