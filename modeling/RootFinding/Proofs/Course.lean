import RootFinding.Algorithm
import RootFinding.Proofs.Outcome

/-!
# The course of a run

What happens between the start of a run and its solution, for any strategy.

* `Run.Leads S c r t`: from `r` the run gets to `t` by active steps that return, and by the
  headline that a solve prints when it takes the run over. `Leads.invariant` is the induction over
  it.
* `Run.Course S c r₀ s n`: the states of a run between its first steps, in order. `Leads.course`: a
  run that is not stopped has a course.
* `Run.step_cases`: a step that returns is a step of the strategy that returned, or one that
  failed and was ended by `Run.endWith`; either way it is then counted and reported.
* `Run.endWith_ends`: what ending a run with a failure leaves behind, with the four ways the run
  may have fallen back (`Run.FellBack`).
* `Strategy.solve_ok`: a solution is that of a run that has got to a state that is not active.

Most actions of a step reach the workspace, the strategy's own state and the text only; what they
leave alone is `Run.rest`. Of that, the present iterate, its residual and the checks form the
`Run.core`.
-/

namespace RootFinding

open Action

variable {σ R K X α : Type}

theorem Failure.returnCode_ne_success (f : Failure R K) : f.returnCode ≠ .success := by
  unfold Failure.returnCode
  cases f.kind <;> exact nofun

theorem Failure.returnCode_ne_default (f : Failure R K) : f.returnCode ≠ .default := by
  unfold Failure.returnCode
  cases f.kind <;> exact nofun

namespace Run

/-- The iterate, its residual and the checks. -/
def core (r : Run σ R K X) : Vec K × Vec K × Checker R K := (r.u, r.fu, r.checker)

/-- All of a run but the workspace. -/
def unworked (r : Run σ R K X) : Workspace σ R K → Run σ R K X := fun work => { r with work }

theorem eq_of_unworked {r t : Run σ R K X} (h : t.unworked = r.unworked) :
    t = { r with work := t.work } :=
  congrFun h t.work

/-- All of a run but the workspace, the strategy's own state and the text. -/
def rest (r : Run σ R K X) : Workspace σ R K → X → String → Run σ R K X :=
  fun work ext printed => { r with work, ext, printed }

theorem eq_of_rest {r t : Run σ R K X} (h : t.rest = r.rest) :
    t = { r with work := t.work, ext := t.ext, printed := t.printed } :=
  congrFun (congrFun (congrFun h t.work) t.ext) t.printed

theorem keeps_rest {a : Stepping σ R K X α} (h : Keeps unworked a) : Keeps rest a := fun r =>
  (congrArg rest (eq_of_unworked (h r))).trans rfl

section Actions

variable {r : Run σ R K X}

@[simp] theorem ends_onWork {a : Work σ R K α} {Q : α → Run σ R K X → Prop}
    {E : Thrown R K → Run σ R K X → Prop} :
    Ends (onWork a) r Q E ↔
      a.Ends r.work (fun x work => Q x { r with work }) (fun e work => E e { r with work }) :=
  ends_within

@[simp] theorem ends_onExt {a : Action (Thrown R K) X α} {Q : α → Run σ R K X → Prop}
    {E : Thrown R K → Run σ R K X → Prop} :
    Ends (onExt a) r Q E ↔
      a.Ends r.ext (fun x ext => Q x { r with ext }) (fun e ext => E e { r with ext }) :=
  ends_within

@[simp] theorem ends_update {f : X → X} {Q : Unit → Run σ R K X → Prop}
    {E : Thrown R K → Run σ R K X → Prop} :
    Ends (update f) r Q E ↔ Q () { r with ext := f r.ext } := Iff.rfl

@[simp] theorem ends_moveTo {u fu : Vec K} {Q : Unit → Run σ R K X → Prop}
    {E : Thrown R K → Run σ R K X → Prop} :
    Ends (moveTo u fu) r Q E ↔ Q () { r with u, fu } := Iff.rfl

theorem onWork_of_eval {a : Work σ R K α} {x : Except (Thrown R K) α} {w : Workspace σ R K}
    (h : a.eval r.work = (x, w)) :
    (onWork a : Stepping σ R K X α).eval r = (x, { r with work := w }) := by
  simp only [onWork, eval_within, h]

theorem keeps_onWork (a : Work σ R K α) : Keeps unworked (onWork a : Stepping σ R K X α) :=
  keeps_within a fun _ _ => rfl

theorem keeps_onExt (a : Action (Thrown R K) X α) :
    Keeps rest (onExt a : Stepping σ R K X α) :=
  keeps_within a fun _ _ => rfl

theorem keeps_update (f : X → X) : Keeps rest (update f : Stepping σ R K X Unit) :=
  keeps_modify fun _ => rfl

variable [Scalar R]

/-- The run with one more line printed. -/
def printing (style text : String) (r : Run σ R K X) : Run σ R K X :=
  let line : PrintLine R K := { text }
  { r with printed := r.printed ++ (r.styles.print style none line).text }

@[simp] theorem ends_print {style text : String} {Q : Unit → Run σ R K X → Prop}
    {E : Thrown R K → Run σ R K X → Prop} :
    Ends (print style text) r Q E ↔ Q () (r.printing style text) := Iff.rfl

@[simp] theorem ends_notice {text : String} {Q : Unit → Run σ R K X → Prop}
    {E : Thrown R K → Run σ R K X → Prop} :
    Ends (notice text) r Q E ↔ Q () (r.printing "notice" text) := Iff.rfl

theorem keeps_notice (text : String) : Keeps rest (notice text : Stepping σ R K X Unit) :=
  keeps_modify fun _ => rfl

end Actions

variable [Scalar R] [Entry R K]

section Reports

variable {r : Run σ R K X}

/-- A check changes the checks and the outcome, and nothing else. -/
theorem check_frame (r : Run σ R K X) :
    check.Ends r (fun _ t => ∃ checker code stopped, t = { r with checker, code, stopped })
      (fun _ t => ∃ checker, t = { r with checker }) := by
  simp only [check, ends_bind, ends_get, ends_within]
  refine ends_true.mono (fun converged k _ => ?_) (fun _ k _ => ⟨k, rfl⟩)
  split
  · exact ⟨k, .success, true, rfl⟩
  · exact ⟨k, r.code, r.stopped, rfl⟩

/-- A check that is passed stops the run. -/
theorem check_stops (r : Run σ R K X) :
    check.Ends r (fun b t => b = true → t.stopped = true) (fun _ _ => True) := by
  simp only [check, ends_bind, ends_get, ends_within]
  refine ends_true.mono (fun converged k _ => ?_) (fun _ _ _ => trivial)
  split
  · exact fun _ => rfl
  next h => exact fun hpassed => absurd hpassed h

@[simp] theorem ends_evaluate {c : Setup σ R K} {u : Vec K} {Q : Vec K → Run σ R K X → Prop}
    {E : Thrown R K → Run σ R K X → Prop} :
    Ends (evaluate c u) r Q E ↔
      (c.problem.evaluate u).Ends r.work (fun x work => Q x { r with work })
        (fun e work => E e { r with work }) :=
  ends_onWork

theorem keeps_evaluate (c : Setup σ R K) (u : Vec K) :
    Keeps unworked (evaluate c u : Stepping σ R K X (Vec K)) :=
  keeps_onWork _

/-- The run with a step counted and reported that began at `before`. -/
def recorded (c : Setup σ R K) (before : Vec K) (r : Run σ R K X) : Run σ R K X :=
  ((record c before).eval r).2

theorem record_eval (c : Setup σ R K) (before : Vec K) (r : Run σ R K X) :
    ∃ trace printed, (record c before).eval r =
      (.ok (), { r with steps := r.steps + 1, trace, printed }) := by
  have h : (record c before).Ends r
      (fun _ t => ∃ trace printed, t = { r with steps := r.steps + 1, trace, printed })
      (fun _ _ => False) := by
    by_cases hs : c.options.storeTrace <;> simp [record, hs, printing]
  rcases ha : (record c before).eval r with ⟨_ | _, t⟩
  · exact (h.error ha).elim
  · obtain ⟨trace, printed, rfl⟩ := h.ok ha
    exact ⟨trace, printed, rfl⟩

/-- A report changes the count of steps, the trace and the text, and nothing else. -/
theorem recorded_eq (c : Setup σ R K) (before : Vec K) (r : Run σ R K X) :
    ∃ trace printed, recorded c before r = { r with steps := r.steps + 1, trace, printed } := by
  obtain ⟨trace, printed, h⟩ := record_eval c before r
  exact ⟨trace, printed, by rw [recorded, h]⟩

/-- A part of the run that is none of these is left alone by a report. -/
theorem recorded_frame {T : Type} (π : Run σ R K X → T)
    (hπ : ∀ r steps trace printed, π { r with steps, trace, printed } = π r) (c : Setup σ R K)
    (before : Vec K) (r : Run σ R K X) : π (recorded c before r) = π r := by
  obtain ⟨trace, printed, h⟩ := recorded_eq c before r
  rw [h, hπ]

@[simp] theorem recorded_core (c : Setup σ R K) (before : Vec K) (r : Run σ R K X) :
    (recorded c before r).core = r.core :=
  recorded_frame core (fun _ _ _ _ => rfl) c before r

@[simp] theorem recorded_u (c : Setup σ R K) (before : Vec K) (r : Run σ R K X) :
    (recorded c before r).u = r.u :=
  recorded_frame (·.u) (fun _ _ _ _ => rfl) c before r

@[simp] theorem recorded_fu (c : Setup σ R K) (before : Vec K) (r : Run σ R K X) :
    (recorded c before r).fu = r.fu :=
  recorded_frame (·.fu) (fun _ _ _ _ => rfl) c before r

@[simp] theorem recorded_error (c : Setup σ R K) (before : Vec K) (r : Run σ R K X) :
    (recorded c before r).error = r.error :=
  recorded_frame (·.error) (fun _ _ _ _ => rfl) c before r

@[simp] theorem recorded_stopped (c : Setup σ R K) (before : Vec K) (r : Run σ R K X) :
    (recorded c before r).stopped = r.stopped :=
  recorded_frame (·.stopped) (fun _ _ _ _ => rfl) c before r

@[simp] theorem recorded_code (c : Setup σ R K) (before : Vec K) (r : Run σ R K X) :
    (recorded c before r).code = r.code :=
  recorded_frame (·.code) (fun _ _ _ _ => rfl) c before r

@[simp] theorem recorded_ext (c : Setup σ R K) (before : Vec K) (r : Run σ R K X) :
    (recorded c before r).ext = r.ext :=
  recorded_frame (·.ext) (fun _ _ _ _ => rfl) c before r

@[simp] theorem recorded_checker (c : Setup σ R K) (before : Vec K) (r : Run σ R K X) :
    (recorded c before r).checker = r.checker :=
  recorded_frame (·.checker) (fun _ _ _ _ => rfl) c before r

@[simp] theorem recorded_maxiters (c : Setup σ R K) (before : Vec K) (r : Run σ R K X) :
    (recorded c before r).maxiters = r.maxiters :=
  recorded_frame (·.maxiters) (fun _ _ _ _ => rfl) c before r

@[simp] theorem recorded_work (c : Setup σ R K) (before : Vec K) (r : Run σ R K X) :
    (recorded c before r).work = r.work :=
  recorded_frame (·.work) (fun _ _ _ _ => rfl) c before r

@[simp] theorem recorded_steps (c : Setup σ R K) (before : Vec K) (r : Run σ R K X) :
    (recorded c before r).steps = r.steps + 1 := by
  obtain ⟨trace, printed, h⟩ := recorded_eq c before r
  rw [h]

end Reports

/-! ## Ending with a failure -/

/-- How a run `t` with the core of `r` otherwise may have fallen back to an earlier iterate. -/
inductive FellBack (c : Setup σ R K) (r t : Run σ R K X) : Prop
  /-- Nothing to fall back from. -/
  | finite (safe : r.checker.isSafe = false) (u : r.u.isFinite) (fu : r.fu.isFinite)
    (core : t.core = r.core)
  /-- The earlier iterate is numerically the present one. -/
  | same (same : r.checker.fallback.same r.u) (core : t.core = r.core)
  /-- The earlier iterate has no residual any more. -/
  | unanswered (f : Failure R K) (w : Workspace σ R K)
    (residual : (c.problem.evaluate r.checker.fallback).eval r.work = (.error (.failure f), w))
    (core : t.core = r.core)
  | moved (fu : Vec K) (w : Workspace σ R K)
    (residual : (c.problem.evaluate r.checker.fallback).eval r.work = (.ok fu, w))
    (core : t.core = (r.checker.fallback, fu, r.checker))

/-- A run stays where it is or falls back to an iterate with its residual. -/
theorem FellBack.core_cases {c : Setup σ R K} {r t : Run σ R K X} (h : FellBack c r t) :
    t.core = r.core ∨ ∃ fu w,
      (c.problem.evaluate r.checker.fallback).eval r.work = (.ok fu, w) ∧
        t.core = (r.checker.fallback, fu, r.checker) := by
  cases h with
  | finite _ _ _ core => exact .inl core
  | same _ core => exact .inl core
  | unanswered _ _ _ core => exact .inl core
  | moved fu w residual core => exact .inr ⟨fu, w, residual, core⟩

/-- The state that a failure leaves before the run falls back. -/
def failed (f : Failure R K) (r : Run σ R K X) : Run σ R K X :=
  { r with error := some f, code := f.returnCode, stopped := true }

/-- What changes when a run is ended with a failure: the outcome, the text, the workspace, and the
core in one of the ways of `FellBack`. -/
structure EndedWith (c : Setup σ R K) (f : Failure R K) (r t : Run σ R K X) : Prop where
  fellBack : FellBack c r t
  rest : t = { r.failed f with
    u := t.u, fu := t.fu, work := t.work, printed := t.printed }

section EndedWith

variable {c : Setup σ R K} {f : Failure R K} {r t : Run σ R K X}

theorem EndedWith.ext_eq (h : EndedWith c f r t) : t.ext = r.ext := congrArg (·.ext) h.rest

theorem EndedWith.error_eq (h : EndedWith c f r t) : t.error = some f := congrArg (·.error) h.rest

theorem EndedWith.code_eq (h : EndedWith c f r t) : t.code = f.returnCode :=
  congrArg (·.code) h.rest

theorem EndedWith.stopped_eq (h : EndedWith c f r t) : t.stopped = true :=
  congrArg (·.stopped) h.rest

theorem EndedWith.checker_eq (h : EndedWith c f r t) : t.checker = r.checker :=
  congrArg (·.checker) h.rest

theorem EndedWith.steps_eq (h : EndedWith c f r t) : t.steps = r.steps :=
  congrArg (·.steps) h.rest

theorem EndedWith.maxiters_eq (h : EndedWith c f r t) : t.maxiters = r.maxiters :=
  congrArg (·.maxiters) h.rest

end EndedWith

theorem endWith_ends (c : Setup σ R K) (f : Failure R K) (r : Run σ R K X) :
    (endWith c f).Ends r (fun _ t => EndedWith c f r t)
      (fun e t => ∃ fault w, e = .fault fault ∧
        (c.problem.evaluate r.checker.fallback).eval r.work = (.error (.fault fault), w) ∧
        t = { r.failed f with work := t.work, printed := t.printed }) := by
  simp only [endWith, ends_bind, ends_modify, ends_notice, ends_get]
  split
  next hfall =>
    simp only [fallBack, ends_bind, ends_get]
    split
    next hsame => exact ⟨.same hsame rfl, rfl⟩
    next =>
      simp only [ends_bind, ends_attempt, ends_evaluate]
      rw [ends_iff]
      constructor
      · intro fu w h
        exact ⟨.moved fu w h rfl, rfl⟩
      · intro e w h
        cases e with
        | failure g => exact ⟨.unanswered g w h rfl, rfl⟩
        | fault e => exact ⟨e, w, rfl, h, rfl⟩
  next hstay =>
    simp only [Bool.or_eq_true, Bool.not_eq_true', Bool.and_eq_false_iff, not_or,
      Bool.not_eq_true, Bool.not_eq_false] at hstay
    exact ⟨.finite hstay.1 hstay.2.1 hstay.2.2 rfl, rfl⟩

/-! ## Steps -/

omit [Scalar R] [Entry R K] in
theorem stopped_of_isActive {r : Run σ R K X} (h : r.isActive) : r.stopped = false := by
  simp only [isActive, Bool.and_eq_true, Bool.not_eq_true'] at h
  exact h.1

/-- A step that returns, taken apart. -/
theorem step_cases {S : Strategy σ R K X} {c : Setup σ R K} {r t : Run σ R K X}
    (h : (step S c).eval r = (.ok (), t)) :
    (∃ s, (S.step c).eval r = (.ok (), s) ∧ t = recorded c r.u s) ∨
      ∃ f s s', (S.step c).eval r = (.error (.failure f), s) ∧ EndedWith c f s s' ∧
        t = recorded c r.u s' := by
  have hrec : ∀ s : Run σ R K X, Ends (record c r.u) s (fun _ t => t = recorded c r.u s)
      (fun _ _ => True) := by
    intro s
    obtain ⟨trace, printed, hs⟩ := record_eval c r.u s
    simp [Ends, recorded, hs]
  have key : (step S c).Ends r
      (fun _ t => (∃ s, (S.step c).eval r = (.ok (), s) ∧ t = recorded c r.u s) ∨
        ∃ f s s', (S.step c).eval r = (.error (.failure f), s) ∧ EndedWith c f s s' ∧
          t = recorded c r.u s') (fun _ _ => True) := by
    simp only [step, ends_bind, ends_get, ends_attempt]
    rw [ends_iff]
    constructor
    · intro _ s hs
      exact (hrec s).mono (fun _ t ht => .inl ⟨s, hs, ht⟩) (fun _ _ _ => trivial)
    · intro e s hs
      cases e with
      | fault e => trivial
      | failure f =>
        refine (endWith_ends c f s).bind (fun _ s' hs' => ?_) (fun _ _ _ => trivial)
        exact (hrec s').mono (fun _ t ht => .inr ⟨f, s, s', hs, hs', ht⟩) (fun _ _ _ => trivial)
  exact key.ok h

/-- A step that returns and has not failed is one of the strategy that returned. -/
theorem step_going {S : Strategy σ R K X} {c : Setup σ R K} {r t : Run σ R K X}
    (h : (step S c).eval r = (.ok (), t)) (ht : t.error = none) :
    ∃ s, (S.step c).eval r = (.ok (), s) ∧ t = recorded c r.u s := by
  rcases step_cases h with hgoing | ⟨f, s, s', -, hend, rfl⟩
  · exact hgoing
  · rw [recorded_error, hend.error_eq] at ht
    cases ht

/-- The run with the headline of a solve printed. -/
def headed (S : Strategy σ R K X) (r : Run σ R K X) : Run σ R K X :=
  r.printing "solver" s!"{S.name} - Solving {r.u.size} Equations:"

/-- From `r` the run gets to the last argument. -/
inductive Leads (S : Strategy σ R K X) (c : Setup σ R K) (r : Run σ R K X) :
    Run σ R K X → Prop
  | refl : Leads S c r r
  | headline {t : Run σ R K X} : Leads S c r t → Leads S c r (t.headed S)
  | step {s t : Run σ R K X} :
    Leads S c r s → s.isActive → (Run.step S c).eval s = (.ok (), t) → Leads S c r t

section Leads

variable {S : Strategy σ R K X} {c : Setup σ R K} {r s t : Run σ R K X}

/-- What holds at first, is indifferent to the text, and survives every active step that returns,
holds wherever the run gets. -/
theorem Leads.invariant {I : Run σ R K X → Prop} (h : Leads S c r t) (start : I r)
    (headline : ∀ s, I s → I (s.headed S))
    (step : ∀ s t, I s → s.isActive → (Run.step S c).eval s = (.ok (), t) → I t) : I t := by
  induction h with
  | refl => exact start
  | headline _ ih => exact headline _ ih
  | step _ active hs ih => exact step _ _ ih active hs

theorem Leads.trans (h : Leads S c r s) (h' : Leads S c s t) : Leads S c r t := by
  induction h' with
  | refl => exact h
  | headline _ ih => exact ih.headline
  | step _ active hs ih => exact ih.step active hs

theorem loop_leads (h : Leads S c r s) (fuel : Nat) :
    (loop S c fuel).Ends s (fun _ t => Leads S c r t) (fun _ _ => True) := by
  induction fuel generalizing s with
  | zero => exact h
  | succ fuel ih =>
    simp only [loop, ends_bind, ends_get]
    split
    next active =>
      rw [ends_bind]
      exact ends_iff.2 ⟨fun _ t ht => ih (h.step active ht), fun _ _ _ => trivial⟩
    next => exact h

end Leads

/-- The states of a run that has begun in `r₀`, before its first step and after each of the first
`n`. No step has stopped the run. -/
structure Course (S : Strategy σ R K X) (c : Setup σ R K) (r₀ : Run σ R K X)
    (s : Nat → Run σ R K X) (n : Nat) : Prop where
  start : s 0 = r₀
  step : ∀ i < n, ∃ printed, (Run.step S c).eval { s i with printed } = (.ok (), s (i + 1))
  going : ∀ i < n, (s (i + 1)).stopped = false

/-- The course of one step. -/
theorem Course.single {S : Strategy σ R K X} {c : Setup σ R K} {r t : Run σ R K X}
    (h : (Run.step S c).eval r = (.ok (), t)) (ht : t.stopped = false) :
    Course S c r (fun i => if i = 0 then r else t) 1 where
  start := rfl
  step i hi := by
    obtain rfl : i = 0 := Nat.lt_one_iff.1 hi
    exact ⟨r.printed, h⟩
  going i _ := ht

/-- A run that is not stopped has come to where it is by its steps. -/
theorem Leads.course {S : Strategy σ R K X} {c : Setup σ R K} {r t : Run σ R K X}
    (h : Leads S c r t) (ht : t.stopped = false) :
    ∃ s n printed, Course S c r s n ∧ t = { s n with printed } := by
  induction h with
  | refl =>
    exact ⟨fun _ => r, 0, r.printed,
      ⟨rfl, fun i hi => (Nat.not_lt_zero i hi).elim, fun i hi => (Nat.not_lt_zero i hi).elim⟩, rfl⟩
  | headline _ ih =>
    obtain ⟨s, n, printed, hs, rfl⟩ := ih ht
    exact ⟨s, n, _, hs, rfl⟩
  | @step _ t _ active hstep ih =>
    obtain ⟨s, n, printed, hs, rfl⟩ := ih (stopped_of_isActive active)
    have hold : ∀ i ≤ n, (if i ≤ n then s i else t) = s i := fun i hi => if_pos hi
    have hnew : (if n + 1 ≤ n then s (n + 1) else t) = t := if_neg (Nat.not_succ_le_self n)
    refine ⟨fun i => if i ≤ n then s i else t, n + 1, t.printed,
      ⟨(hold 0 n.zero_le).trans hs.start, fun i hi => ?_, fun i hi => ?_⟩, by simp only [hnew]⟩
    · rcases Nat.lt_or_eq_of_le (Nat.le_of_lt_succ hi) with hlt | rfl
      · rw [hold i (Nat.le_of_lt hlt), hold (i + 1) hlt]
        exact hs.step i hlt
      · rw [hold i (Nat.le_refl i), hnew]
        exact ⟨printed, hstep⟩
    · rcases Nat.lt_or_eq_of_le (Nat.le_of_lt_succ hi) with hlt | rfl
      · rw [hold (i + 1) hlt]
        exact hs.going i hlt
      · rw [hnew]
        exact ht

end Run

/-! ## Starts -/

section Starts

variable [Scalar R] [Entry R K] {S : Strategy σ R K X} {c : Setup σ R K} {world : σ}

/-- What a run that has started began with. -/
structure Run.Started (S : Strategy σ R K X) (c : Setup σ R K) (world : σ) (r : Run σ R K X)
    (fu : Vec K) (work : Workspace σ R K) (system : LinearSystem R K) (ext : X) : Prop where
  residual : (c.problem.evaluate c.problem.guess.entries).eval (Run.emptyWorkspace world) =
    (.ok fu, work)
  size : c.problem.leastSquares = false → fu.size = c.problem.guess.entries.size
  prepared : S.start c c.problem.guess.entries fu = .ok (system, ext)
  limit : 0 ≤ c.options.maxiters
  eq : r = Run.ofStart c { work with system } fu ext

theorem Run.start_ok {r : Run σ R K X} (h : Run.start S c world = .ok r) :
    ∃ fu work system ext, Run.Started S c world r fu work system ext := by
  unfold Run.start at h
  split at h
  · cases h
  next hlimit =>
    dsimp only at h
    split at h
    · cases h
    next fu work hfu =>
      split at h
      · cases h
      next hsize =>
        split at h
        · cases h
        next system ext hext =>
          cases h
          refine ⟨fu, work, system, ext, hfu, fun hls => ?_, hext, by omega, rfl⟩
          simpa [hls] using hsize

theorem Run.Started.start_eq {r : Run σ R K X} {fu : Vec K} {work : Workspace σ R K}
    {system : LinearSystem R K} {ext : X} (h : Run.Started S c world r fu work system ext) :
    Run.start S c world = .ok r := by
  have hlimit : ¬c.options.maxiters < 0 := Int.not_lt.2 h.limit
  have hsize : (!c.problem.leastSquares && fu.size != c.problem.guess.entries.size) = false := by
    cases hleast : c.problem.leastSquares with
    | true => rfl
    | false => simpa using h.size hleast
  rw [Run.start, if_neg hlimit]
  simp only [h.residual, hsize, h.prepared, h.eq, Bool.false_eq_true, if_false]

theorem Run.start_error {r : Run σ R K X} (h : Run.start S c world = .ok r) :
    r.error = none := by
  obtain ⟨fu, work, system, ext, started⟩ := Run.start_ok h
  rw [started.eq]
  rfl

/-- The run of a solve gets to a state. -/
def Run.Reaches (S : Strategy σ R K X) (c : Setup σ R K) (world : σ) (t : Run σ R K X) : Prop :=
  ∃ r, Run.start S c world = .ok r ∧ Run.Leads S c r t

end Starts

/-! ## Solutions -/

theorem Tensor.reshape_entries {v : Vec K} {shape : Shape} {t : Tensor K}
    (h : Tensor.reshape v shape = .ok t) : t.entries = v := by
  unfold Tensor.reshape at h
  split at h
  · cases h
    rfl
  · cases h

theorem Problem.toUser_entries {p : Problem σ R K} {v : Vec K} {shape : Shape} {t : Tensor K}
    (h : p.toUser v shape = .ok t) : t.entries = v := by
  unfold Problem.toUser at h
  split at h
  · cases h
    rfl
  · exact Tensor.reshape_entries h

theorem Problem.residualToUser_entries {p : Problem σ R K} {first : Option Shape} {f : Vec K}
    {t : Tensor K} (h : p.residualToUser first f = .ok t) : t.entries = f := by
  unfold Problem.residualToUser at h
  split at h
  · split at h <;> exact toUser_entries h
  · exact toUser_entries h

section Solutions

variable [Scalar R] [Entry R K] {S : Strategy σ R K X} {c : Setup σ R K} {world : σ}

/-- The run at its end, with its return code and the line of the result. -/
def Run.closed (c : Setup σ R K) (r : Run σ R K X) : Run σ R K X :=
  let r := { r with code := r.finalCode }
  r.printing "solver" (Run.resultText c r)

/-- A run that is finished is closed as the loop leaves it. -/
theorem Run.finish_of_loop {r : Run σ R K X} {P : Run σ R K X → Prop}
    (h : (Run.loop S c (r.maxiters - r.steps).toNat).Ends (r.headed S) (fun _ e => P e)
      (fun _ _ => True)) :
    (Run.finish S c).Ends r
      (fun s t => ∃ e, P e ∧ t = e.closed c ∧ t.solution c.problem = .ok s) (fun _ _ => True) := by
  simp only [Run.finish, ends_bind, ends_get, Run.ends_print, ends_modify, ends_ofFault]
  exact Ends.mono h (fun _ e he => ⟨fun s hs => ⟨e, he, rfl, hs⟩, fun _ _ => trivial⟩)
    (fun _ _ h => h)

theorem Run.finish_ok {r t : Run σ R K X} {s : Solution R K}
    (h : (Run.finish S c).eval r = (.ok s, t)) :
    ∃ e, Run.Leads S c r e ∧ t = e.closed c ∧ t.solution c.problem = .ok s :=
  (Run.finish_of_loop (Run.loop_leads (.headline .refl) _)).ok h

/-- A solve that answers has started, and answers for a state that its run has got to. -/
theorem Strategy.solve_ok {s : Solution R K} {t : Run σ R K X}
    (h : S.solve c world = .ok (s, t)) :
    ∃ e, Run.Reaches S c world e ∧ t = e.closed c ∧ t.solution c.problem = .ok s := by
  unfold Strategy.solve at h
  rcases hr : Run.start S c world with e | r
  · simp [hr, bind, Except.bind] at h
  · simp only [hr, bind, Except.bind] at h
    rcases hf : (Run.finish S c).eval r with ⟨e | s', t'⟩
    · simp [hf, throw, throwThe, MonadExceptOf.throw] at h
    · simp only [hf, pure, Except.pure, Except.ok.injEq, Prod.mk.injEq] at h
      rcases h with ⟨rfl, rfl⟩
      obtain ⟨e, he, ht, hs⟩ := Run.finish_ok hf
      exact ⟨e, ⟨r, hr, he⟩, ht, hs⟩

/-- A run that is finished answers the solution of the run that the loop leaves. -/
theorem Run.finish_eval {r e : Run σ R K X} {s : Solution R K}
    (he : (Run.loop S c (r.maxiters - r.steps).toNat).eval (r.headed S) = (.ok (), e))
    (hs : (e.closed c).solution c.problem = .ok s) :
    (Run.finish S c).eval r = (.ok s, e.closed c) := by
  have h : (Run.finish S c).Ends r (fun x t => x = s ∧ t = e.closed c) (fun _ _ => False) := by
    simp only [Run.finish, ends_bind, ends_get, Run.ends_print, ends_modify]
    refine ends_iff.2 ⟨fun _ e' he' => ?_, fun _ _ he' => ?_⟩
    · cases he.symm.trans he'
      exact (ends_ofFault_ok hs).2 ⟨rfl, rfl⟩
    · cases he.symm.trans he'
  rcases hx : (Run.finish S c).eval r with ⟨_ | x, t⟩
  · exact (h.error hx).elim
  · obtain ⟨rfl, rfl⟩ := h.ok hx
    rfl

theorem Strategy.solve_eq_ok {s : Solution R K} {t : Run σ R K X} :
    S.solve c world = .ok (s, t) ↔
      ∃ r, Run.start S c world = .ok r ∧ (Run.finish S c).eval r = (.ok s, t) := by
  unfold Strategy.solve
  rcases hr : Run.start S c world with e | r
  · simp [bind, Except.bind]
  · rcases hf : (Run.finish S c).eval r with ⟨e | s', t'⟩ <;>
      simp [hf, bind, Except.bind, pure, Except.pure, throw, throwThe, MonadExceptOf.throw]

omit [Scalar R] [Entry R K] in
/-- A solution shows the iterate and the residual of its run, and its outcome. -/
theorem Run.solution_ok {r : Run σ R K X} {p : Problem σ R K} {s : Solution R K}
    (h : r.solution p = .ok s) :
    s.u.entries = r.u ∧ s.residual.entries = r.fu ∧ s.code = r.code ∧ s.error = r.error ∧
      s.stats = r.stats ∧ s.trace = r.trace := by
  unfold Run.solution at h
  obtain ⟨u, hu, h⟩ := Fault.bind_ok h
  obtain ⟨f, hf, h⟩ := Fault.bind_ok h
  cases h
  exact ⟨Problem.toUser_entries hu, Problem.residualToUser_entries hf, rfl, rfl, rfl, rfl⟩

end Solutions

/-! ## Algorithms -/

namespace Algorithm

/-- The state of an algorithm's strategy. -/
def State : Algorithm σ R K → Type
  | newton _ => Newton.State σ R K
  | pseudoTransient _ => PseudoTransient.State R K
  | trustRegion _ => TrustRegion.State R K
  | levenbergMarquardt _ => LevenbergMarquardt.State R K
  | spectralResidual _ => SpectralResidual.State R

variable [Scalar R] [Entry R K]

/-- The strategy of an algorithm. -/
def strategy : (a : Algorithm σ R K) → Strategy σ R K a.State
  | newton a => a.strategy
  | pseudoTransient a => a.strategy
  | trustRegion a => a.strategy
  | levenbergMarquardt a => a.strategy
  | spectralResidual a => a.strategy

theorem solve_eq (a : Algorithm σ R K) (c : Setup σ R K) (world : σ) :
    a.solve c world = outcome a.strategy c world := by
  cases a <;> rfl

/-- A solve that answers shows a state that its run has got to. -/
theorem solve_ok {a : Algorithm σ R K} {c : Setup σ R K} {world : σ} {o : Outcome σ R K}
    (h : a.solve c world = .ok o) :
    ∃ e : Run σ R K a.State, Run.Reaches a.strategy c world e ∧
      (e.closed c).solution c.problem = .ok o.solution := by
  rw [solve_eq, outcome] at h
  rcases hs : a.strategy.solve c world with e | ⟨s, t⟩
  · simp [hs, Except.map] at h
  · simp only [hs, Except.map, Except.ok.injEq] at h
    obtain ⟨e, he, rfl, hsol⟩ := Strategy.solve_ok hs
    exact ⟨e, he, by rw [hsol, ← h]⟩

end Algorithm

end RootFinding
