import RootFinding.Proofs.Endings

/-!
# The stored error

A caller may take steps of a run and let it solve, in any order, and may step on when the run has
ended. A failure stores its error with its return code and stops the run, and nothing takes the
error back. So the outcome of a run agrees with its error as long as no step converges that is taken
on a run with an error; such a step leaves a successful run that still holds the error.

* `Run.call`, `Run.called`: the calls on a run. `Run.called_invariant`: what every step preserves
  holds after any calls.
* `Run.Revives`, `Run.Revived`: a step that converges on a run with an error, and calls with such a
  step.
* `Run.Coded`: a run with an error is stopped, with the return code of the error. A step keeps this
  unless it revives the run, and a solve always keeps it.
* `Algorithm.errors_agree_iff`: a run and its solutions agree on their errors throughout some calls
  if and only if no step revives it.
-/

namespace RootFinding

open Action

variable {σ R K X : Type} [Scalar R] [Entry R K] {S : Strategy σ R K X} {c : Setup σ R K}

/-! ## Agreement -/

/-- The success, the error and the reported failure of a solution agree. -/
structure Solution.Agrees (s : Solution R K) : Prop where
  success : s.success = true → s.error = none ∧ s.failure? = none
  failure : ∀ f, s.error = some f →
    s.success = false ∧ s.code = f.returnCode ∧ s.failure? = some f

namespace Run

variable {r t : Run σ R K X}

/-- A successful run has no error, and every solution that is built from the run agrees. -/
structure Agrees (c : Setup σ R K) (r : Run σ R K X) : Prop where
  errorless : r.code = .success → r.error = none
  solution : ∀ s, r.solution c.problem = .ok s → s.Agrees

/-- A run with an error is stopped, with the return code of the error. -/
structure Coded (r : Run σ R K X) : Prop where
  code : ∀ f, r.error = some f → r.code = f.returnCode
  stopped : ∀ f, r.error = some f → r.stopped = true

section Coded

omit [Scalar R] [Entry R K]

theorem Coded.of_eq (hr : r.Coded) (code : t.code = r.code) (stopped : t.stopped = r.stopped)
    (error : t.error = r.error) : t.Coded where
  code f hf := code.trans (hr.code f (error.symm.trans hf))
  stopped f hf := stopped.trans (hr.stopped f (error.symm.trans hf))

theorem Coded.of_error {f : Failure R K} (code : t.code = f.returnCode) (stopped : t.stopped = true)
    (error : t.error = some f) : t.Coded := by
  refine ⟨fun g hg => ?_, fun _ _ => stopped⟩
  cases error.symm.trans hg
  exact code

theorem Coded.of_none (error : t.error = none) : t.Coded := by
  constructor <;> intro f hf <;> cases error.symm.trans hf

theorem Coded.error_eq_none (hr : r.Coded) (h : r.stopped = false) : r.error = none := by
  cases herror : r.error with
  | none => rfl
  | some f => exact (Bool.false_ne_true (h.symm.trans (hr.stopped f herror))).elim

/-- A run that has its code has it for good. -/
theorem Coded.finalCode_eq {f : Failure R K} (hr : r.Coded) (hf : r.error = some f) :
    r.finalCode = r.code := by
  refine if_neg ?_
  rw [hr.code f hf]
  exact f.returnCode_ne_default

theorem Coded.agrees (hr : r.Coded) : r.Agrees c where
  errorless hsuccess := by
    cases herror : r.error with
    | none => rfl
    | some f => exact (f.returnCode_ne_success ((hr.code f herror).symm.trans hsuccess)).elim
  solution s hs := by
    obtain ⟨-, -, hcode, herror, -⟩ := solution_ok hs
    have hfailed : ∀ f, s.error = some f → s.code = f.returnCode := fun f hf =>
      hcode.trans (hr.code f (herror.symm.trans hf))
    refine ⟨fun hsuccess => ?_, fun f hf => ?_⟩
    · have hsucceeded : s.code = .success := by
        simpa [Solution.success, ReturnCode.successful] using hsuccess
      cases hnone : s.error with
      | none => exact ⟨rfl, by simp [Solution.failure?, hsuccess]⟩
      | some f => exact (f.returnCode_ne_success ((hfailed f hnone).symm.trans hsucceeded)).elim
    · have hne : s.code ≠ .success := by
        rw [hfailed f hf]
        exact f.returnCode_ne_success
      exact ⟨by simpa [Solution.success, ReturnCode.successful] using hne, hfailed f hf,
        Solution.failure?_of_error hne hf⟩

end Coded

/-! ## Steps -/

/-- The run has an error, and the next step converges. -/
def Revives (S : Strategy σ R K X) (c : Setup σ R K) (r : Run σ R K X) : Prop :=
  r.error ≠ none ∧ ∃ s, (S.step c).eval r = (.ok (), s) ∧ Tested c true r s

/-- What a step leaves is coded, or the step has revived the run. -/
theorem StepsTo.coded (h : StepsTo S c r t) (hr : r.Coded) (hrevives : ¬r.Revives S c) :
    t.Coded := by
  cases h with
  | on s _ tested =>
    have hs : s.status = r.status := tested.unmet
    refine hr.of_eq ?_ ?_ ?_
    · rw [recorded_code, code_of_status hs]
    · rw [recorded_stopped, stopped_of_status hs]
    · rw [recorded_error, error_of_status hs]
  | converges s stepped tested =>
    refine .of_none ?_
    by_contra herror
    rw [recorded_error, tested.error_eq] at herror
    exact hrevives ⟨herror, s, stepped, tested⟩
  | fails f s s' _ _ ended =>
    refine .of_error (f := f) ?_ ?_ ?_
    · rw [recorded_code, ended.code_eq]
    · rw [recorded_stopped, ended.stopped_eq]
    · rw [recorded_error, ended.error_eq]

theorem Raises.coded (h : Raises S c r t) (hr : r.Coded) : t.Coded := by
  cases h with
  | strategy f _ broken =>
    exact hr.of_eq (code_of_status broken.status) (stopped_of_status broken.status)
      (error_of_status broken.status)
  | fallback f s _ _ rest =>
    rw [rest]
    exact .of_error rfl rfl rfl

theorem Coded.step (hS : S.Proceeds c) (hr : r.Coded) (hrevives : ¬r.Revives S c) :
    (Run.step S c).Ends r (fun _ t => t.Coded) (fun _ t => t.Coded) :=
  (hS.step_ends r).mono (fun _ _ h => h.coded hr hrevives) (fun _ _ h => h.coded hr)

/-- A step that revives a run leaves it successful, with the error that it had. -/
theorem Revives.step (h : r.Revives S c) :
    ((Run.step S c).eval r).2.code = .success ∧ ((Run.step S c).eval r).2.error ≠ none := by
  rcases h with ⟨herror, s, stepped, tested⟩
  rw [step_of_ok stepped]
  refine ⟨?_, ?_⟩
  · rw [recorded_code, code_of_status tested.met]
    rfl
  · rw [recorded_error, tested.error_eq]
    exact herror

/-- A run in the loop has no error, so no step of the loop revives it. -/
theorem Coded.loop (hS : S.Proceeds c) (fuel : Nat) (hr : r.Coded) :
    (loop S c fuel).Ends r (fun _ t => t.Coded) (fun _ t => t.Coded) := by
  induction fuel generalizing r with
  | zero => exact hr
  | succ fuel ih =>
    simp only [Run.loop, ends_bind, ends_get]
    split
    next active =>
      have hrevives : ¬r.Revives S c := fun h =>
        h.1 (hr.error_eq_none (stopped_of_isActive active))
      rw [ends_bind]
      exact (hr.step hS hrevives).mono (fun _ _ ht => ih ht) (fun _ _ ht => ht)
    next => exact hr

theorem Coded.finish (hS : S.Proceeds c) (hr : r.Coded) :
    (finish S c).Ends r (fun _ t => t.Coded) (fun _ t => t.Coded) := by
  have hheaded : (r.headed S).Coded := hr.of_eq rfl rfl rfl
  have hclosed : ∀ e : Run σ R K X, e.Coded → (e.closed c).Coded := fun e he =>
    ⟨fun f hf => (he.finalCode_eq hf).trans (he.code f hf), he.stopped⟩
  simp only [Run.finish, ends_bind, ends_get, ends_print, ends_modify, ends_ofFault]
  exact Ends.mono (hheaded.loop hS _)
    (fun _ e he => ⟨fun _ _ => hclosed e he, fun _ _ => hclosed e he⟩) (fun _ _ he => he)

end Run

/-! ## Calls -/

/-- What a caller can call on a run, at any time. -/
inductive Call where
  | step
  | solve
  deriving DecidableEq, Repr

namespace Run

variable {r : Run σ R K X} {calls : List Call}

/-- The run after a call, also where the call raises an error. -/
def call (S : Strategy σ R K X) (c : Setup σ R K) (r : Run σ R K X) : Call → Run σ R K X
  | .step => ((Run.step S c).eval r).2
  | .solve => ((Run.finish S c).eval r).2

/-- The run after some calls. -/
def called (S : Strategy σ R K X) (c : Setup σ R K) (r : Run σ R K X) (calls : List Call) :
    Run σ R K X :=
  calls.foldl (call S c) r

/-- One of the calls is a step that revives the run. -/
def Revived (S : Strategy σ R K X) (c : Setup σ R K) (r : Run σ R K X) (calls : List Call) : Prop :=
  ∃ before, before ++ [.step] <+: calls ∧ (r.called S c before).Revives S c

theorem Coded.call (hS : S.Proceeds c) (hr : r.Coded) (call : Call)
    (hcall : call = .step → ¬r.Revives S c) : (r.call S c call).Coded := by
  cases call with
  | step => exact (hr.step hS (hcall rfl)).state
  | solve => exact (hr.finish hS).state

theorem Coded.called (hS : S.Proceeds c) (hr : r.Coded) (hrevived : ¬r.Revived S c calls) :
    (r.called S c calls).Coded := by
  induction calls generalizing r with
  | nil => exact hr
  | cons call calls ih =>
    refine ih (hr.call hS call fun hstep hrevives => hrevived ⟨[], ?_, hrevives⟩) fun hlater => ?_
    · exact ⟨calls, by simp [hstep]⟩
    · obtain ⟨before, hbefore, hrevives⟩ := hlater
      exact hrevived ⟨call :: before, (List.prefix_cons_inj call).2 hbefore, hrevives⟩

theorem Revived.mono {before : List Call} (h : r.Revived S c before) (hbefore : before <+: calls) :
    r.Revived S c calls := by
  obtain ⟨first, hfirst, hrevives⟩ := h
  exact ⟨first, hfirst.trans hbefore, hrevives⟩

theorem called_append (before rest : List Call) :
    r.called S c (before ++ rest) = (r.called S c before).called S c rest :=
  List.foldl_append

section Invariants

variable {I : Run σ R K X → Prop}

/-- What every step preserves holds after the loop, and what holds of the errors of steps holds of
those of the loop. -/
theorem loop_invariant {E : Thrown R K → Run σ R K X → Prop}
    (hstep : ∀ s, I s → (step S c).Ends s (fun _ t => I t) E) (fuel : Nat) (hr : I r) :
    (loop S c fuel).Ends r (fun _ t => I t) E := by
  induction fuel generalizing r with
  | zero => exact hr
  | succ fuel ih =>
    simp only [loop, ends_bind, ends_get]
    split
    · rw [ends_bind]
      exact (hstep r hr).mono (fun _ _ ht => ih ht) (fun _ _ ht => ht)
    · exact hr

/-- What every step preserves, also one that raises an error, and what does not look at the return
code or the text, holds after any calls. -/
theorem called_invariant (hstep : ∀ s, I s → (step S c).Ends s (fun _ t => I t) (fun _ t => I t))
    (hframe : ∀ s code printed, I s → I { s with code, printed }) (hr : I r)
    (calls : List Call) : I (r.called S c calls) := by
  induction calls generalizing r with
  | nil => exact hr
  | cons call calls ih =>
    refine ih ?_
    cases call with
    | step => exact (hstep r hr).state
    | solve =>
      have hfinish : (finish S c).Ends r (fun _ t => I t) (fun _ t => I t) := by
        simp only [finish, ends_bind, ends_get, ends_print, ends_modify, ends_ofFault]
        exact Ends.mono (loop_invariant hstep _ (hframe r r.code _ hr))
          (fun _ e he => ⟨fun _ _ => hframe e _ _ he, fun _ _ => hframe e _ _ he⟩)
          (fun _ _ he => he)
      exact hfinish.state

end Invariants

end Run

/-- **When errors agree.**  Whatever a caller calls on a run that has started, the run has no error
whenever it is successful, and its solutions agree on their success, their error and the failure
that they report, if and only if no step converges that is taken on a run with an error. -/
theorem Algorithm.errors_agree_iff (a : Algorithm σ R K) (c : Setup σ R K) (world : σ)
    (calls : List Call) {r : Run σ R K a.State} (hstart : Run.start a.strategy c world = .ok r) :
    (∀ before, before <+: calls → (r.called a.strategy c before).Agrees c) ↔
      ¬r.Revived a.strategy c calls := by
  constructor
  · intro hagrees hrevived
    obtain ⟨before, hbefore, hrevives⟩ := hrevived
    have hafter := hagrees _ hbefore
    rw [Run.called_append] at hafter
    obtain ⟨hcode, herror⟩ := hrevives.step
    exact herror (hafter.errorless hcode)
  · intro hrevived before hbefore
    have hr : r.Coded := .of_none (Run.start_error hstart)
    exact (hr.called (a.proceeds c) fun h => hrevived (h.mono hbefore)).agrees

/-! ## A run that goes on after a stall -/

/-- A residual that is the unknown down to a half, and zero from there. -/
def cutResidual (x : Number) : Number := .real (if 0.5 < x.re then x.re else 0.0)

/-- The Jacobian is given eight times too large, so Newton steps are short. -/
def cutProblem : Problem Unit Numeral Number where
  residual := .returning fun t w => (.ok ⟨t.shape, t.entries.map cutResidual⟩, w)
  guess := ⟨[1], .ofList [.real 0.6875]⟩
  jacobian := some fun _ w => (.ok (.number (.real 8.0)), w)

/-- The setup of the problem in the safe mode, where two steps without progress are a stall. -/
def cutSetup : Setup Unit Numeral Number :=
  { plainSetup cutProblem with
    options := { (plainSetup cutProblem).options with
      termination := { Termination.standard with mode := .absSafe, patienceSteps := 2 } } }

def cutNewton : Algorithm Unit Numeral Number := .newton (.standard .direct)

/-- A step and a solve: the step is taken on a run without an error, so the run agrees with its
error throughout, also where the solve ends in the stall. -/
theorem cutProblem_agrees :
    ∃ r, Run.start cutNewton.strategy cutSetup () = .ok r ∧
      ∀ before, before <+: [.step, .solve] →
        (r.called cutNewton.strategy cutSetup before).Agrees cutSetup := by
  have hstarts : (Run.start cutNewton.strategy cutSetup ()).toOption.isSome = true := by
    decide +kernel
  rcases hstart : Run.start cutNewton.strategy cutSetup () with e | r
  · rw [hstart] at hstarts
    cases hstarts
  · refine ⟨r, rfl, (Algorithm.errors_agree_iff cutNewton cutSetup () _ hstart).2 ?_⟩
    intro hrevived
    obtain ⟨before, hbefore, herror, -⟩ := hrevived
    cases before with
    | nil => exact herror (Run.start_error hstart)
    | cons first before =>
      have hsecond : before ++ [.step] <+: [.solve] := (List.cons_prefix_cons.1 hbefore).2
      cases before with
      | nil => cases (List.cons_prefix_cons.1 hsecond).1
      | cons second before =>
        have hnone := (List.cons_prefix_cons.1 hsecond).2
        simp at hnone

/-- What the solution after some calls says of the success, the kind of its error and whether it
reports a failure. -/
def verdictAfter (calls : List Call) : Option (Bool × Option FailureKind × Bool) := do
  let r ← (Run.start cutNewton.strategy cutSetup ()).toOption
  let s ← ((r.called cutNewton.strategy cutSetup calls).solution cutProblem).toOption
  return (s.success, s.error.map (·.kind), s.failure?.isSome)

theorem verdictAfter_some {calls : List Call} {success reported : Bool}
    {kind : Option FailureKind} (h : verdictAfter calls = some (success, kind, reported)) :
    ∃ r s, Run.start cutNewton.strategy cutSetup () = .ok r ∧
      (r.called cutNewton.strategy cutSetup calls).solution cutProblem = .ok s ∧
      s.success = success ∧ s.error.map (·.kind) = kind ∧ s.failure?.isSome = reported := by
  unfold verdictAfter at h
  rcases hstart : Run.start cutNewton.strategy cutSetup () with e | r
  · simp [hstart, Except.toOption] at h
  · rcases hs : (r.called cutNewton.strategy cutSetup calls).solution cutProblem with e | s
    · simp [hstart, hs, Except.toOption] at h
    · simp only [hstart, hs, Except.toOption, Option.bind_eq_bind, Option.bind_some,
        Option.pure_def, Option.some.injEq, Prod.mk.injEq] at h
      exact ⟨r, s, rfl, hs, h⟩

/-- The second step stalls and the third one converges: the solution is successful, it still holds
the error of the stall, and it reports no failure. -/
theorem cutProblem_disagrees :
    ∃ r s, Run.start cutNewton.strategy cutSetup () = .ok r ∧
      (r.called cutNewton.strategy cutSetup [.step, .step, .step]).solution cutProblem = .ok s ∧
      s.success = true ∧ s.error.map (·.kind) = some .stall ∧ s.failure?.isSome = false :=
  verdictAfter_some (by decide +kernel)

end RootFinding
