import RootFinding.Proofs.SafeModes

/-!
# Reports

What a solve prints and what it keeps in its trace have no influence on it, and both say what has
happened.

* `Line`: a line of the report with its style. `Line.upTo`: the lines that a level of the report
  shows.
* `Run.Tells`: two runs that differ in their reports only, which print the same lines up to their
  levels. `Run.Echoes`: they have printed the same notices since.
* `Algorithm.unreported_echoes`: up to its report a step is the same action in both runs.
  `Algorithm.step_tells`, `loop_tells`: with their reports, steps and loops end alike and tell the
  same lines.
* `Run.Narrative`: what the steps of a loop have told, one after the other.
  `Narrative.trace_eq`: the trace has an entry for each of them.
* `Algorithm.solve_reported`: what this says about two solves of one problem.
-/

namespace RootFinding

open Action

variable {σ R K X α : Type}

/-- An action without answers fails. -/
theorem Action.Ends.exists_error {ε S : Type} {a : Action ε S α} {s : S} {E : ε → S → Prop}
    (h : a.Ends s (fun _ _ => False) E) : ∃ e t, a.eval s = (.error e, t) ∧ E e t := by
  rcases ha : a.eval s with ⟨e | _, t⟩
  · exact ⟨e, t, rfl, h.error ha⟩
  · exact (h.ok ha).elim

/-! ## Lines -/

/-- A line of the report: the name of its style and its text. -/
structure Line where
  style : String
  text : String
  deriving DecidableEq, Repr

namespace Line

/-- The style of a line, if the report of a solve has it. -/
def style? (l : Line) : Option Style := (PrintStyles.forSolve 0).find? l.style

/-- Whether a level of the report shows a line: its style stands at most at that level. -/
def isShown (level : Int) (l : Line) : Bool := l.style?.all fun s => (s.level : Int) ≤ level

/-- The lines that a level of the report shows. -/
def upTo (level : Int) (lines : List Line) : List Line := lines.filter (isShown level)

/-- A line as it is printed. -/
def shown (l : Line) : String := (l.style?.elim l.text fun s => s.apply l.text) ++ "\n"

/-- Lines as they are printed. -/
def printed (lines : List Line) : String := String.join (lines.map shown)

theorem isShown_mono {d d' : Int} (h : d ≤ d') (l : Line) (hl : l.isShown d) : l.isShown d' := by
  unfold isShown at hl ⊢
  cases hs : l.style? with
  | none => rfl
  | some s =>
    rw [hs] at hl
    exact decide_eq_true (Int.le_trans (of_decide_eq_true hl) h)

/-- The lines of a level are among those of a higher one. -/
theorem upTo_upTo {d d' : Int} (h : d ≤ d') (lines : List Line) :
    upTo d (upTo d' lines) = upTo d lines := by
  unfold upTo
  rw [List.filter_filter]
  refine List.filter_congr fun l _ => ?_
  cases hl : l.isShown d with
  | true => rw [isShown_mono h l hl]; rfl
  | false => rfl

theorem printed_append (lines lines' : List Line) :
    printed (lines ++ lines') = printed lines ++ printed lines' := by
  unfold printed
  rw [List.map_append, String.join_append]

@[simp] theorem upTo_append (d : Int) (lines lines' : List Line) :
    upTo d (lines ++ lines') = upTo d lines ++ upTo d lines' :=
  List.filter_append ..

variable {R K : Type} [Scalar R]

/-- What a call of `print` writes for a line. -/
theorem print_eq (d : Int) (l : Line) :
    ((PrintStyles.forSolve d).print (some l.style) none { text := l.text : PrintLine R K }).text =
      printed (upTo d [l]) := by
  have hfind : (PrintStyles.forSolve d).find? l.style = l.style? := rfl
  have hlevel : (PrintStyles.forSolve d).level = d := rfl
  have hprinted : printed (upTo d [l]) = if l.isShown d then l.shown else "" := by
    unfold printed upTo
    rw [List.filter_singleton]
    cases l.isShown d <;> simp
  rw [hprinted]
  unfold PrintStyles.print isShown shown
  simp only [hfind, hlevel]
  cases hs : l.style? with
  | none => simp [PrintLine.render]
  | some s =>
    by_cases hs : (s.level : Int) ≤ d
    · simp [hs, PrintLine.render]
    · simp [hs]

end Line

/-! ## Runs that differ in their reports -/

/-- The setup with another report. -/
def Setup.reporting (c : Setup σ R K) (level : Int) (storeTrace : Bool) : Setup σ R K :=
  { c with options := { c.options with displayLevel := level, storeTrace } }

namespace Run

variable {r t : Run σ R K X} {d d' : Int} {p p' : String}

/-- Runs that differ in their reports only: beyond the texts `p` and `p'` they have printed the
given lines, the first one up to the level `d` and the second one up to `d'`. -/
def Tells (d d' : Int) (p p' : String) (lines : List Line) (r t : Run σ R K X) : Prop :=
  r.styles = .forSolve d ∧ r.printed = p ++ Line.printed (Line.upTo d lines) ∧
    ∃ trace, t = { r with
      styles := .forSolve d'
      trace
      printed := p' ++ Line.printed (Line.upTo d' lines) }

/-- Runs that differ in their reports only: since `r₀` and `t₀` both have given the same notices,
and the first one has entered nothing in its trace. -/
def Echoes (d d' : Int) (r₀ t₀ r t : Run σ R K X) : Prop :=
  r.trace = r₀.trace ∧ ∃ notices : List Line, (∀ l ∈ notices, l.style = "notice") ∧
    Tells d d' r₀.printed t₀.printed notices r t

theorem Tells.refl {lines : List Line} (h : Tells d d' p p' lines r t) :
    Tells d d' r.printed t.printed [] r t := by
  obtain ⟨hr, -, trace, rfl⟩ := h
  exact ⟨hr, by simp [Line.upTo, Line.printed, String.join], trace,
    by simp [Line.upTo, Line.printed, String.join]⟩

/-- What has been told further on. -/
theorem Tells.trans {lines lines' : List Line} {r' t' : Run σ R K X}
    (h : Tells d d' p p' lines r t) (h' : Tells d d' r.printed t.printed lines' r' t') :
    Tells d d' p p' (lines ++ lines') r' t' := by
  obtain ⟨-, hprinted, trace, rfl⟩ := h
  obtain ⟨hstyles', hprinted', trace', rfl⟩ := h'
  refine ⟨hstyles', ?_, trace', ?_⟩
  · rw [hprinted', hprinted, Line.upTo_append, Line.printed_append, String.append_assoc]
  · rw [Line.upTo_append, Line.printed_append, String.append_assoc]

variable [Scalar R]

theorem printing_eq (hr : r.styles = .forSolve d) {lines : List Line}
    (hprinted : r.printed = p ++ Line.printed (Line.upTo d lines)) (style text : String) :
    r.printing style text =
      { r with printed := p ++ Line.printed (Line.upTo d (lines ++ [⟨style, text⟩])) } := by
  unfold printing
  rw [hr, hprinted]
  have := Line.print_eq (R := R) (K := K) d ⟨style, text⟩
  simp only at this ⊢
  rw [this, String.append_assoc, ← Line.printed_append, ← Line.upTo_append]

/-- One line more. -/
theorem Tells.append {lines : List Line} (h : Tells d d' p p' lines r t) (l : Line) :
    Tells d d' p p' (lines ++ [l]) (r.printing l.style l.text) (t.printing l.style l.text) := by
  obtain ⟨hstyles, hprinted, trace, rfl⟩ := h
  refine ⟨hstyles, ?_, trace, ?_⟩
  · rw [printing_eq hstyles hprinted]
  · refine (printing_eq rfl rfl l.style l.text).trans ?_
    rw [printing_eq hstyles hprinted]

omit [Scalar R] in
theorem Tells.echoes {lines : List Line} (h : Tells d d' p p' lines r t) : Echoes d d' r t r t :=
  ⟨rfl, [], by simp, h.refl⟩

section Echoes

variable {r₀ t₀ : Run σ R K X}

theorem echoes_overlooks (d d' : Int) (r₀ t₀ : Run σ R K X) : Overlooks (Echoes d d' r₀ t₀) where
  eq := by
    intro r t h
    obtain ⟨-, notices, -, -, -, trace, rfl⟩ := h
    exact ⟨r.checker, _, trace, _, rfl⟩
  blind := by
    intro f r t hf h
    obtain ⟨htrace, notices, hnotices, hstyles, hprinted, trace, rfl⟩ := h
    have hr : f r = (f r).aside r.checker r.styles r.trace r.printed := hf _ _ _ _ r
    refine ⟨?_, notices, hnotices, ?_, ?_, trace, ?_⟩
    · rw [hr]
      exact htrace
    · rw [hr]
      exact hstyles
    · rw [hr]
      exact hprinted
    · refine (hf r.checker (.forSolve d') trace _ r).trans ?_
      rw [hr]
      rfl
  printing := by
    intro r t text h
    obtain ⟨htrace, notices, hnotices, h⟩ := h
    have hmore := h.append (Line.mk "notice" text)
    refine ⟨htrace, _, fun l hl => ?_, hmore⟩
    rcases List.mem_append.1 hl with hl | hl
    · exact hnotices l hl
    · rw [List.mem_singleton.1 hl]

omit [Scalar R] in
/-- An action that reads the run, but not its report. -/
theorem echoes_get_bind {g : Run σ R K X → Stepping σ R K X α}
    (hg : ∀ r styles trace printed, g { r with styles, trace, printed } = g r)
    (hρ : ∀ r, Respects (Echoes d d' r₀ t₀) (g r)) : Respects (Echoes d d' r₀ t₀) (get >>= g) := by
  intro r t h
  have hsame : g t = g r := by
    obtain ⟨-, notices, -, -, -, trace, rfl⟩ := h
    exact hg r _ _ _
  rw [alike_get_bind, hsame]
  exact hρ r r t h

variable [Entry R K]

/-- The check of a run looks at no report. -/
theorem check_echoes (d d' : Int) (r₀ t₀ : Run σ R K X) :
    Respects (Echoes d d' r₀ t₀) (check : Stepping σ R K X Bool) := by
  have hsilent := echoes_overlooks d d' r₀ t₀
  refine echoes_get_bind (fun _ _ _ _ => rfl) fun r => Respects.bind (fun s t h => ?_) fun b => ?_
  · obtain ⟨htrace, notices, hnotices, hstyles, hprinted, trace, rfl⟩ := h
    have hchecked : ∀ k, Alike Eq (Checker.check r.fu r.u r.previous)
        (Checker.check r.fu r.u r.previous) k k := fun _ => ⟨rfl, rfl⟩
    exact Alike.within (hchecked _) fun k k' hk =>
      ⟨htrace, notices, hnotices, hstyles, hprinted, trace, by rw [hk]⟩
  · exact Respects.guard (hsilent.modify fun _ _ _ _ _ => rfl) (respects_pure _)

/-- Ending a run with a failure looks at no report. -/
theorem endWith_echoes (c : Setup σ R K) (f : Failure R K) (d d' : Int) (r₀ t₀ : Run σ R K X) :
    Respects (Echoes d d' r₀ t₀) (endWith c f : Stepping σ R K X Unit) := by
  have hsilent := echoes_overlooks d d' r₀ t₀
  have hback : Respects (Echoes d d' r₀ t₀) (fallBack c : Stepping σ R K X Unit) := by
    refine echoes_get_bind (fun _ _ _ _ => rfl) fun r => ?_
    dsimp only
    split
    · exact respects_pure _
    · refine Respects.bind (fun s t h => (hsilent.evaluate c _ s t h).attempt) fun x => ?_
      rcases x with (f | e) | fu
      · exact respects_pure _
      · exact respects_throw _
      · exact hsilent.moveTo _ _
  refine (hsilent.modify fun _ _ _ _ _ => rfl).bind fun _ => (hsilent.notice _).bind fun _ => ?_
  refine echoes_get_bind (fun _ _ _ _ => rfl) fun r => ?_
  split
  · exact hback
  · exact respects_pure _

end Echoes

variable [Entry R K]

/-- The line that a step reports which has begun at `before`. -/
def stepLine (c : Setup σ R K) (before : Vec K) (r : Run σ R K X) : Line :=
  ⟨"iteration", stepText r.steps (c.options.norm r.fu) (c.options.norm (r.u - before)) r.alpha r.u⟩

/-- The trace entry of a step that has begun at `before`. -/
def stepEntry (c : Setup σ R K) (before : Vec K) (r : Run σ R K X) : TraceEntry R :=
  { step := r.steps, residualNorm := c.options.norm r.fu, stepNorm := c.options.norm (r.u - before)
    alpha := r.alpha }

/-- What the report of a step does to a run: the step is counted, entered in the trace if this is
kept, and told in a line. -/
theorem recorded_report (c : Setup σ R K) (before : Vec K) (r : Run σ R K X) :
    recorded c before r =
      Run.printing "iteration" (stepLine c before { r with steps := r.steps + 1 }).text
        { r with
          steps := r.steps + 1
          trace :=
            if c.options.storeTrace then
              r.trace ++ [stepEntry c before { r with steps := r.steps + 1 }]
            else r.trace } := by
  by_cases hs : c.options.storeTrace <;>
    simp [recorded, record, eval_bind, Run.print, hs, stepLine, stepEntry, printing]

theorem record_recorded (c : Setup σ R K) (before : Vec K) (r : Run σ R K X) :
    (record c before).eval r = (.ok (), recorded c before r) := by
  obtain ⟨trace, printed, h⟩ := record_eval c before r
  rw [recorded, h]

theorem stepLine_recorded (c c' : Setup σ R K) (before : Vec K) (r : Run σ R K X) :
    stepLine c before (recorded c' before r) =
      stepLine c before { r with steps := r.steps + 1 } := by
  obtain ⟨_, _, h⟩ := recorded_eq c' before r
  rw [h]
  rfl

theorem stepEntry_recorded (c c' : Setup σ R K) (before : Vec K) (r : Run σ R K X) :
    stepEntry c before (recorded c' before r) =
      stepEntry c before { r with steps := r.steps + 1 } := by
  obtain ⟨_, _, h⟩ := recorded_eq c' before r
  rw [h]
  rfl

/-- A step that is reported says one line more. -/
theorem Tells.report {lines : List Line} (h : Tells d d' p p' lines r t) (c : Setup σ R K)
    (b b' : Bool) (before : Vec K) :
    Tells d d' p p' (lines ++ [stepLine c before (recorded (c.reporting d b) before r)])
      (recorded (c.reporting d b) before r) (recorded (c.reporting d' b') before t) := by
  rw [stepLine_recorded, recorded_report, recorded_report]
  have hcounted : ∀ trace trace', Tells d d' p p' lines
      { r with steps := r.steps + 1, trace } { t with steps := t.steps + 1, trace := trace' } := by
    intro trace trace'
    obtain ⟨hstyles, hprinted, _, rfl⟩ := h
    exact ⟨hstyles, hprinted, trace', rfl⟩
  have hline : stepLine (c.reporting d' b') before { t with steps := t.steps + 1 } =
      stepLine c before { r with steps := r.steps + 1 } := by
    obtain ⟨-, -, _, rfl⟩ := h
    rfl
  rw [hline]
  exact (hcounted _ _).append _

end Run

/-! ## Steps and loops -/

variable [Scalar R] [Entry R K]

/-- A step of the loop up to its report. -/
def Run.unreported (S : Strategy σ R K X) (c : Setup σ R K) : Stepping σ R K X Unit := do
  match ← (S.step c).attempt with
  | .ok () => pure ()
  | .error (.failure f) => endWith c f
  | .error (.fault e) => throw (.fault e)

theorem Run.step_eq (S : Strategy σ R K X) (c : Setup σ R K) :
    Run.step S c = get >>= fun r => unreported S c >>= fun _ => record c r.u := by
  unfold Run.step unreported
  refine bind_congr fun r => ?_
  rw [bind_assoc]
  refine bind_congr fun x => ?_
  rcases x with (f | e) | u
  · dsimp only
  · dsimp only
  · rw [pure_bind]

theorem SpectralResidual.search_reporting (a : SpectralResidual σ R K) (c : Setup σ R K) (d : Int)
    (b : Bool) (q : Search R K) (fuel : Nat) :
    a.search (c.reporting d b) q fuel = a.search c q fuel := by
  induction fuel with
  | zero => rfl
  | succ fuel ih =>
    funext ahead behind t
    simp only [search, ih]
    rfl

namespace Algorithm

variable {a : Algorithm σ R K} {c : Setup σ R K} {r r' t : Run σ R K a.State} {d d' : Int}
  {p p' : String}

/-- Nothing that a step of an algorithm does depends on the report. -/
theorem step_reporting (a : Algorithm σ R K) (c : Setup σ R K) (d : Int) (b : Bool) :
    a.strategy.step (c.reporting d b) = a.strategy.step c := by
  have happroach : a.approach (c.reporting d b) = a.approach c := by
    cases a with
    | spectralResidual a =>
      simp only [approach, SpectralResidual.approach, SpectralResidual.search_reporting]
      rfl
    | newton _ => rfl
    | pseudoTransient _ => rfl
    | trustRegion _ => rfl
    | levenbergMarquardt _ => rfl
  rw [step_parts, step_parts, happroach]

theorem strategy_echoes (a : Algorithm σ R K) (c : Setup σ R K) (d d' : Int)
    (r₀ t₀ : Run σ R K a.State) :
    Respects (Run.Echoes d d' r₀ t₀) (a.strategy.step c) := by
  have hsilent := Run.echoes_overlooks d d' r₀ t₀
  rw [step_parts]
  exact (approach_respects c hsilent).bind fun _ => (Run.check_echoes d d' r₀ t₀).bind fun b =>
    aftermath_respects hsilent b

/-- Up to its report a step of the loop is the same action in both setups. -/
theorem unreported_echoes (a : Algorithm σ R K) (c : Setup σ R K) (d d' : Int)
    (r₀ t₀ : Run σ R K a.State) :
    Respects (Run.Echoes d d' r₀ t₀) (Run.unreported a.strategy c) := by
  refine Respects.bind (fun r t h => (a.strategy_echoes c d d' r₀ t₀ r t h).attempt) fun x => ?_
  rcases x with (f | e) | u
  · exact Run.endWith_echoes c f d d' r₀ t₀
  · exact respects_throw _
  · exact respects_pure _

theorem unreported_reporting (a : Algorithm σ R K) (c : Setup σ R K) (d : Int) (b : Bool) :
    Run.unreported a.strategy (c.reporting d b) = Run.unreported a.strategy c := by
  unfold Run.unreported
  rw [step_reporting]
  rfl

end Algorithm

namespace Run

variable {S : Strategy σ R K X} {c : Setup σ R K} {r r' : Run σ R K X}

/-- What a step from `r` to `r'` has told beyond the lines before it, and what it has entered in the
trace. -/
structure Reported (c : Setup σ R K) (r r' : Run σ R K X) (more : List Line) : Prop where
  lines : ∃ notices : List Line, (∀ l ∈ notices, l.style = "notice") ∧
    more = notices ++ [stepLine c r.u r']
  steps : r'.steps = r.steps + 1
  trace : r'.trace = if c.options.storeTrace then r.trace ++ [stepEntry c r.u r'] else r.trace

end Run

namespace Algorithm

variable {a : Algorithm σ R K} {c : Setup σ R K} {r t : Run σ R K a.State} {d d' : Int}
  {p p' : String} {lines : List Line}

/-- Steps of two runs that differ in their reports end alike, and those that return tell the same
lines. -/
theorem step_tells (b b' : Bool) (h : Run.Tells d d' p p' lines r t) :
    (Run.step a.strategy (c.reporting d b)).Ends r
      (fun _ r' => ∃ more t', Run.Reported (c.reporting d b) r r' more ∧
        (Run.step a.strategy (c.reporting d' b')).eval t = (.ok (), t') ∧
        Run.Tells d d' p p' (lines ++ more) r' t')
      (fun e r' => ∃ more t', (Run.step a.strategy (c.reporting d' b')).eval t = (.error e, t') ∧
        Run.Tells d d' p p' (lines ++ more) r' t') := by
  have hu : t.u = r.u := by
    obtain ⟨-, -, trace, rfl⟩ := h
    rfl
  have hmain := a.unreported_echoes c d d' r t r t h.echoes
  refine ends_iff.2 ⟨fun _ r' hr' => ?_, fun e r' hr' => ?_⟩
  · have hsteps := ((a.proceeds _).stepsTo hr').count.1
    rw [Run.step_eq, unreported_reporting, eval_bind, eval_get, eval_bind_ok] at hr'
    obtain ⟨⟨⟩, s, hs, hrecord⟩ := hr'
    obtain ⟨s', hs', htrace, notices, hnotices, hmore⟩ := hmain.eval hs
    rw [Run.record_recorded] at hrecord
    cases hrecord
    refine ⟨_, Run.recorded (c.reporting d' b') r.u s', ⟨⟨notices, hnotices, rfl⟩, hsteps, ?_⟩, ?_,
      h.trans (hmore.report c b b' r.u)⟩
    · rw [Run.stepEntry_recorded, Run.recorded_report, ← htrace]
      rfl
    · simp only [Run.step_eq, unreported_reporting, eval_bind, eval_get, hu, hs',
        Run.record_recorded]
  · rw [Run.step_eq, unreported_reporting, eval_bind, eval_get, eval_bind_error] at hr'
    rcases hr' with hs | ⟨_, s, -, hrecord⟩
    · obtain ⟨s', hs', -, notices, -, hmore⟩ := hmain.eval hs
      refine ⟨notices, s', ?_, h.trans hmore⟩
      simp only [Run.step_eq, unreported_reporting, eval_bind, eval_get, hs']
    · rw [Run.record_recorded] at hrecord
      cases hrecord

end Algorithm

/-! ## Loops -/

namespace Run

variable {S : Strategy σ R K X} {c : Setup σ R K} {r e : Run σ R K X}

theorem loop_eval_active (n : Nat) (hr : r.isActive = true) :
    (loop S c (n + 1)).eval r = (step S c >>= fun _ => loop S c n).eval r := by
  rw [loop, eval_bind, eval_get]
  simp only [hr, if_true]

theorem loop_eval_idle (n : Nat) (hr : r.isActive = false) :
    (loop S c n).eval r = (.ok (), r) := by
  obtain ⟨⟨⟩, t, ht, rfl⟩ := (loop_idle (S := S) (c := c) n hr).exists_ok
  exact ht

theorem loop_eval_one (hr : r.isActive = true) : (loop S c 1).eval r = (step S c).eval r := by
  rw [loop_eval_active 0 hr, eval_bind]
  rcases (step S c).eval r with ⟨_ | _, s⟩ <;> rfl

/-- The last round of a loop may as well be a loop of its own. -/
theorem loop_eval_succ (S : Strategy σ R K X) (c : Setup σ R K) (n : Nat) (r : Run σ R K X) :
    (loop S c (n + 1)).eval r = (loop S c n >>= fun _ => loop S c 1).eval r := by
  induction n generalizing r with
  | zero => rfl
  | succ n ih =>
    cases hr : r.isActive with
    | false => simp only [eval_bind, loop_eval_idle _ hr]
    | true =>
      rw [loop_eval_active _ hr, eval_bind, eval_bind, loop_eval_active _ hr, eval_bind]
      rcases (step S c).eval r with ⟨_ | _, s⟩
      · rfl
      · exact (ih s).trans (eval_bind ..)

/-- The state of the loop after at most `n` steps. -/
def stage (S : Strategy σ R K X) (c : Setup σ R K) (r : Run σ R K X) (n : Nat) : Run σ R K X :=
  ((loop S c n).eval r).2

theorem stage_eq {n : Nat} {x : Except (Thrown R K) Unit} (h : (loop S c n).eval r = (x, e)) :
    stage S c r n = e := by
  rw [stage, h]

/-- What the first `n` steps of the loop have told. -/
inductive Narrative (c : Setup σ R K) (s : Nat → Run σ R K X) : Nat → List Line → Prop
  | start : Narrative c s 0 []
  | step {n : Nat} {lines more : List Line} : Narrative c s n lines →
    Reported c (s n) (s (n + 1)) more → Narrative c s (n + 1) (lines ++ more)

section Narrative

variable {s : Nat → Run σ R K X} {n : Nat} {lines : List Line}

theorem Narrative.steps_eq (h : Narrative c s n lines) : (s n).steps = (s 0).steps + n := by
  induction h with
  | start => rfl
  | step _ reported ih => rw [reported.steps, ih, Nat.add_assoc]

/-- The trace has an entry for each step. -/
theorem Narrative.trace_eq (h : Narrative c s n lines) (hc : c.options.storeTrace = true) :
    (s n).trace = (s 0).trace ++ (List.range n).map fun i =>
      { step := (s 0).steps + (i + 1)
        residualNorm := c.options.norm (s (i + 1)).fu
        stepNorm := c.options.norm ((s (i + 1)).u - (s i).u)
        alpha := (s (i + 1)).alpha } := by
  induction h with
  | start => simp
  | @step n _ _ told reported ih =>
    have hcount : (s (n + 1)).steps = (s 0).steps + (n + 1) := by
      rw [reported.steps, told.steps_eq, Nat.add_assoc]
    rw [reported.trace, if_pos hc, ih, List.range_succ, List.map_append, List.append_assoc]
    simp only [List.map_cons, List.map_nil, stepEntry, hcount]

end Narrative

end Run

namespace Algorithm

variable {a : Algorithm σ R K} {c : Setup σ R K} {r t : Run σ R K a.State} {d d' : Int}
  {p p' : String} {lines : List Line}

/-- A round of the loops of two runs that differ in their reports ends alike: both are idle, or both
make a step, which tells the same lines. -/
theorem round_tells (b b' : Bool) (h : Run.Tells d d' p p' lines r t) :
    (Run.loop a.strategy (c.reporting d b) 1).Ends r
      (fun _ e => ∃ more e',
        (r.isActive = false ∧ more = [] ∧ e = r ∨
          r.isActive = true ∧ Run.Reported (c.reporting d b) r e more) ∧
        (Run.loop a.strategy (c.reporting d' b') 1).eval t = (.ok (), e') ∧
        Run.Tells d d' p p' (lines ++ more) e e')
      (fun x e => ∃ more e',
        (Run.loop a.strategy (c.reporting d' b') 1).eval t = (.error x, e') ∧
        Run.Tells d d' p p' (lines ++ more) e e') := by
  have hactive : t.isActive = r.isActive := by
    obtain ⟨-, -, _, rfl⟩ := h
    rfl
  cases hr : r.isActive with
  | false =>
    rw [hr] at hactive
    refine (Run.loop_idle 1 hr).mono (fun _ e he => ?_) (fun _ _ h => h.elim)
    subst he
    exact ⟨[], t, .inl ⟨rfl, rfl, rfl⟩, Run.loop_eval_idle 1 hactive, by rwa [List.append_nil]⟩
  | true =>
    rw [hr] at hactive
    rw [Run.loop_eval_one hactive]
    refine Ends.congr ?_ (Run.loop_eval_one hr)
    refine (step_tells b b' h).mono (fun _ e he => ?_) (fun _ _ he => he)
    obtain ⟨more, e', hreported, he', htold⟩ := he
    exact ⟨more, e', .inr ⟨rfl, hreported⟩, he', htold⟩

/-- Loops of two runs that differ in their reports end alike, and those that return tell the same
lines, step by step. -/
theorem loop_tells (b b' : Bool) (n : Nat) (h : Run.Tells d d' p p' lines r t) :
    (Run.loop a.strategy (c.reporting d b) n).Ends r
      (fun _ e => ∃ k more e',
        Run.Narrative (c.reporting d b) (Run.stage a.strategy (c.reporting d b) r) k more ∧
        Run.stage a.strategy (c.reporting d b) r k = e ∧ k ≤ n ∧ (k < n → e.isActive = false) ∧
        (Run.loop a.strategy (c.reporting d' b') n).eval t = (.ok (), e') ∧
        Run.Tells d d' p p' (lines ++ more) e e')
      (fun x e => ∃ more e',
        (Run.loop a.strategy (c.reporting d' b') n).eval t = (.error x, e') ∧
        Run.Tells d d' p p' (lines ++ more) e e') := by
  induction n with
  | zero => exact ⟨0, [], t, .start, rfl, Nat.le_refl 0, fun h => absurd h (Nat.lt_irrefl 0), rfl,
      by rwa [List.append_nil]⟩
  | succ n ih =>
    -- the last round is split off, since the narrative grows at its end
    refine Ends.congr ?_ (Run.loop_eval_succ ..)
    rw [ends_bind, ends_iff]
    simp only [Run.loop_eval_succ _ _ n t, eval_bind]
    refine ⟨fun _ s hs => ?_, fun x s hs => ?_⟩
    · obtain ⟨k, more, s', told, hstage, hk, hidle, hs', htells⟩ := ih.ok hs
      simp only [hs']
      refine ends_iff.2 ⟨fun _ e he => ?_, fun x e he => ?_⟩
      · obtain ⟨last, e', hround, he', htold⟩ := (round_tells b b' htells).ok he
        rcases hround with ⟨hr, rfl, rfl⟩ | ⟨hr, hreported⟩
        · rw [List.append_nil] at htold
          exact ⟨k, more, e', told, hstage, Nat.le_succ_of_le hk, fun _ => hr, he', htold⟩
        · have hkn : k = n := Nat.le_antisymm hk (Nat.le_of_not_lt fun hlt => by
            rw [hidle hlt] at hr
            cases hr)
          subst hkn
          have hnext : Run.stage a.strategy (c.reporting d b) r (k + 1) = e := by
            refine Run.stage_eq (x := .ok ()) ?_
            rw [Run.loop_eval_succ, eval_bind, hs]
            exact he
          refine ⟨k + 1, more ++ last, e', told.step ?_, hnext, Nat.le_refl _,
            fun h => absurd h (Nat.lt_irrefl _), he', ?_⟩
          · rwa [hstage, hnext]
          · rwa [← List.append_assoc]
      · obtain ⟨last, e', he', htold⟩ := (round_tells b b' htells).error he
        exact ⟨more ++ last, e', he', by rwa [← List.append_assoc]⟩
    · obtain ⟨more, s', hs', htells⟩ := ih.error hs
      exact ⟨more, s', by simp only [hs'], htells⟩

/-- Whatever the loops come to, they come to it alike. -/
theorem stage_tells (b b' : Bool) (n : Nat) (h : Run.Tells d d' p p' lines r t) :
    ((Run.loop a.strategy (c.reporting d' b') n).eval t).1 =
        ((Run.loop a.strategy (c.reporting d b) n).eval r).1 ∧
      ∃ more, Run.Tells d d' p p' (lines ++ more) (Run.stage a.strategy (c.reporting d b) r n)
        (Run.stage a.strategy (c.reporting d' b') t n) := by
  rcases hr : (Run.loop a.strategy (c.reporting d b) n).eval r with ⟨x | ⟨⟨⟩⟩, e⟩
  · obtain ⟨more, e', ht, htells⟩ := (loop_tells b b' n h).error hr
    rw [Run.stage_eq hr, Run.stage_eq ht, ht]
    exact ⟨rfl, more, htells⟩
  · obtain ⟨-, more, e', -, -, -, -, ht, htells⟩ := (loop_tells b b' n h).ok hr
    rw [Run.stage_eq hr, Run.stage_eq ht, ht]
    exact ⟨rfl, more, htells⟩

/-- A start looks at the report for its styles only. -/
theorem start_reporting (a : Algorithm σ R K) (c : Setup σ R K) (d : Int) (b : Bool) (world : σ) :
    Run.start a.strategy (c.reporting d b) world =
      (Run.start a.strategy c world).map fun r => { r with styles := .forSolve d } := by
  have hprepare : a.strategy.start (c.reporting d b) = a.strategy.start c := by
    cases a <;> rfl
  unfold Run.start
  rw [hprepare]
  by_cases hlimit : c.options.maxiters < 0
  · rw [if_pos hlimit]
    exact if_pos hlimit
  rw [if_neg hlimit]
  refine (if_neg hlimit).trans ?_
  dsimp only [Setup.reporting]
  rcases (c.problem.evaluate c.problem.guess.entries).eval (Run.emptyWorkspace world) with
    ⟨e | fu, work⟩
  · rfl
  dsimp only
  by_cases hsize : (!c.problem.leastSquares && fu.size != c.problem.guess.entries.size) = true
  · rw [if_pos hsize]
    exact if_pos hsize
  · rw [if_neg hsize]
    refine (if_neg hsize).trans ?_
    rcases a.strategy.start c c.problem.guess.entries fu with f | ⟨system, ext⟩
    · rfl
    · rfl

end Algorithm

/-! ## Solves -/

/-- The outcome without the trace and the text. -/
def Outcome.untold (o : Outcome σ R K) : Outcome σ R K :=
  { o with solution := { o.solution with trace := [] }, printed := "" }

namespace Run

variable {S : Strategy σ R K X} {c : Setup σ R K} {r t : Run σ R K X}

theorem ends_finish {Q : Solution R K → Run σ R K X → Prop} {E : Thrown R K → Run σ R K X → Prop} :
    (finish S c).Ends r Q E ↔
      (loop S c (r.maxiters - r.steps).toNat).Ends (r.headed S)
        (fun _ e => (∀ s, (e.closed c).solution c.problem = .ok s → Q s (e.closed c)) ∧
          ∀ f, (e.closed c).solution c.problem = .error f → E (.fault f) (e.closed c)) E := by
  simp only [finish, ends_bind, ends_get, ends_print, ends_modify, ends_ofFault]
  rfl

theorem finish_fault {e : Run σ R K X} {f : Fault}
    (he : (loop S c (r.maxiters - r.steps).toNat).eval (r.headed S) = (.ok (), e))
    (hf : (e.closed c).solution c.problem = .error f) :
    (finish S c).eval r = (.error (.fault f), e.closed c) := by
  have h : (finish S c).Ends r (fun _ _ => False) (fun x t => x = .fault f ∧ t = e.closed c) := by
    rw [ends_finish]
    refine ends_iff.2 ⟨fun _ _ he' => ?_, fun _ _ he' => ?_⟩
    · cases he.symm.trans he'
      refine ⟨fun _ hs => ?_, fun _ hf' => ?_⟩
      · cases hf.symm.trans hs
      · cases hf.symm.trans hf'
        exact ⟨rfl, rfl⟩
    · cases he.symm.trans he'
  obtain ⟨_, _, hx, rfl, rfl⟩ := h.exists_error
  exact hx

theorem finish_error {e : Run σ R K X} {x : Thrown R K}
    (he : (loop S c (r.maxiters - r.steps).toNat).eval (r.headed S) = (.error x, e)) :
    (finish S c).eval r = (.error x, e) := by
  have h : (finish S c).Ends r (fun _ _ => False) (fun y t => y = x ∧ t = e) := by
    rw [ends_finish]
    refine ends_iff.2 ⟨fun _ _ he' => ?_, fun _ _ he' => ?_⟩
    · cases he.symm.trans he'
    · cases he.symm.trans he'
      exact ⟨rfl, rfl⟩
  obtain ⟨_, _, hx, rfl, rfl⟩ := h.exists_error
  exact hx

omit [Scalar R] [Entry R K] in
/-- The solution of a run shows its trace, and nothing else of its report. -/
theorem solution_reporting (p : Problem σ R K) (r : Run σ R K X) (styles : PrintStyles)
    (trace : List (TraceEntry R)) (printed : String) :
    Run.solution p { r with styles, trace, printed } =
      (r.solution p).map fun s => { s with trace } := by
  unfold solution
  dsimp only
  cases p.toUser r.u p.guess.shape with
  | error f => rfl
  | ok u =>
    cases p.residualToUser r.work.residualShape r.fu with
    | error f => rfl
    | ok x => rfl

/-- The heading of a solve. -/
def heading (S : Strategy σ R K X) (r : Run σ R K X) : Line :=
  ⟨"solver", s!"{S.name} - Solving {r.u.size} Equations:"⟩

/-- The line of the result. -/
def resultLine (c : Setup σ R K) (r : Run σ R K X) : Line :=
  ⟨"solver", resultText c { r with code := r.finalCode }⟩

/-- All lines of a solve from `r` to `e`: the heading, those of the steps and the result. -/
def account (S : Strategy σ R K X) (c : Setup σ R K) (r : Run σ R K X) (body : List Line)
    (e : Run σ R K X) : List Line :=
  heading S r :: (body ++ [resultLine c e])

omit [Entry R K] in
theorem Tells.headed {d d' : Int} {p p' : String} {lines : List Line}
    (h : Tells d d' p p' lines r t) (S : Strategy σ R K X) :
    Tells d d' p p' (lines ++ [heading S r]) (r.headed S) (t.headed S) := by
  have hu : t.u = r.u := by
    obtain ⟨-, -, _, rfl⟩ := h
    rfl
  unfold Run.headed
  rw [hu]
  exact h.append (heading S r)

omit [Entry R K] in
theorem Tells.closed {d d' : Int} {p p' : String} {lines : List Line}
    (h : Tells d d' p p' lines r t) (c : Setup σ R K) (b b' : Bool) :
    Tells d d' p p' (lines ++ [resultLine c r]) (r.closed (c.reporting d b))
      (t.closed (c.reporting d' b')) := by
  obtain ⟨hstyles, hprinted, trace, rfl⟩ := h
  exact Tells.append (r := { r with code := r.finalCode }) ⟨hstyles, hprinted, trace, rfl⟩
    (resultLine c r)

end Run

namespace Algorithm

variable {a : Algorithm σ R K} {c : Setup σ R K} {r t : Run σ R K a.State} {d d' : Int}
  {p p' : String} {lines : List Line}

theorem finish_tells (b b' : Bool) (h : Run.Tells d d' p p' lines r t) :
    (Run.finish a.strategy (c.reporting d b)).Ends r
      (fun s e => ∃ k body trace e',
        Run.Narrative (c.reporting d b)
          (Run.stage a.strategy (c.reporting d b) (r.headed a.strategy)) k body ∧
        s.stats.steps = (Run.stage a.strategy (c.reporting d b) (r.headed a.strategy) k).steps ∧
        s.trace = (Run.stage a.strategy (c.reporting d b) (r.headed a.strategy) k).trace ∧
        (Run.finish a.strategy (c.reporting d' b')).eval t = (.ok { s with trace }, e') ∧
        Run.Tells d d' p p' (lines ++ Run.account a.strategy c r body
          (Run.stage a.strategy (c.reporting d b) (r.headed a.strategy) k)) e e')
      (fun x _ => ∃ e', (Run.finish a.strategy (c.reporting d' b')).eval t = (.error x, e')) := by
  have hfuel : (t.maxiters - t.steps).toNat = (r.maxiters - r.steps).toNat := by
    obtain ⟨-, -, _, rfl⟩ := h
    rfl
  rw [Run.ends_finish]
  refine (loop_tells b b' _ (h.headed a.strategy)).mono (fun _ e he => ?_) (fun x _ he => ?_)
  · obtain ⟨k, body, e', told, hstage, -, -, he', htells⟩ := he
    have hclosed := htells.closed c b b'
    obtain ⟨-, -, trace, hsame⟩ := id hclosed
    have hsolution : (e'.closed (c.reporting d' b')).solution c.problem =
        ((e.closed (c.reporting d b)).solution c.problem).map fun s => { s with trace } := by
      rw [hsame]
      exact Run.solution_reporting ..
    refine ⟨fun s hs => ?_, fun f hf => ?_⟩
    · obtain ⟨-, -, -, -, hstats, htrace⟩ := Run.solution_ok hs
      refine ⟨k, body, trace, e'.closed (c.reporting d' b'), told, ?_, ?_, ?_, ?_⟩
      · rw [hstats, hstage]
        rfl
      · rw [htrace, hstage]
        rfl
      · refine Run.finish_eval (hfuel ▸ he') (hsolution.trans ?_)
        rw [show (e.closed (c.reporting d b)).solution c.problem = .ok s from hs]
        rfl
      · rw [Run.account, hstage]
        simpa only [List.append_assoc, List.cons_append, List.nil_append] using hclosed
    · refine ⟨e'.closed (c.reporting d' b'), Run.finish_fault (hfuel ▸ he') (hsolution.trans ?_)⟩
      rw [show (e.closed (c.reporting d b)).solution c.problem = .error f from hf]
      rfl
  · obtain ⟨_, e', he', -⟩ := he
    exact ⟨e', Run.finish_error (hfuel ▸ he')⟩

theorem start_tells (d' : Int) (b b' : Bool) {world : σ}
    (hr : Run.start a.strategy (c.reporting d b) world = .ok r) :
    ∃ t, Run.start a.strategy (c.reporting d' b') world = .ok t ∧ Run.Tells d d' "" "" [] r t := by
  have heq := Run.start_eq hr
  rw [start_reporting] at hr ⊢
  rcases hs : Run.start a.strategy c world with e | s
  · rw [hs] at hr
    cases hr
  · rw [hs] at hr
    cases hr
    have hprinted : s.printed = "" := congrArg (·.printed) heq
    refine ⟨_, rfl, rfl, hprinted, s.trace, ?_⟩
    exact congrArg (fun printed => { s with styles := .forSolve d', printed }) hprinted

theorem solve_eq_ok {world : σ} {o : Outcome σ R K} :
    a.solve c world = .ok o ↔ ∃ s e, a.strategy.solve c world = .ok (s, e) ∧
      o = ⟨s, e.printed, e.work.warnings, e.work.world⟩ := by
  rw [solve_eq, outcome]
  rcases a.strategy.solve c world with x | ⟨s, e⟩
  · simp [Except.map]
  · simp [Except.map, eq_comm]

theorem solve_eq_error {world : σ} {x : Thrown R K} :
    a.solve c world = .error x ↔ Run.start a.strategy c world = .error x ∨
      ∃ r e, Run.start a.strategy c world = .ok r ∧
        (Run.finish a.strategy c).eval r = (.error x, e) := by
  rw [solve_eq, outcome, Strategy.solve]
  rcases hr : Run.start a.strategy c world with y | r
  · simp [bind, Except.bind, Except.map]
  · rcases hf : (Run.finish a.strategy c).eval r with ⟨y | s, e⟩ <;>
      simp [hf, bind, Except.bind, Except.map, pure, Except.pure, throw, throwThe,
        MonadExceptOf.throw]

/-- Solves that differ in their reports come to the same outcome and the same errors. -/
theorem solve_untold (a : Algorithm σ R K) (c : Setup σ R K) (world : σ) (d d' : Int)
    (b b' : Bool) :
    (a.solve (c.reporting d' b') world).map Outcome.untold =
      (a.solve (c.reporting d b) world).map Outcome.untold := by
  rcases h : a.solve (c.reporting d b) world with x | o
  · have h' : a.solve (c.reporting d' b') world = .error x := by
      rw [solve_eq_error] at h ⊢
      rcases h with hr | ⟨r, e, hr, hf⟩
      · left
        rw [start_reporting] at hr ⊢
        rcases hs : Run.start a.strategy c world with y | s <;> rw [hs] at hr <;> cases hr
        rfl
      · obtain ⟨t, ht, htells⟩ := start_tells d' b b' hr
        obtain ⟨e', he'⟩ := (finish_tells b b' htells).error hf
        exact .inr ⟨t, e', ht, he'⟩
    rw [h']
  · obtain ⟨s, e, hs, rfl⟩ := solve_eq_ok.1 h
    obtain ⟨r, hr, hf⟩ := Strategy.solve_eq_ok.1 hs
    obtain ⟨t, ht, htells⟩ := start_tells d' b b' hr
    obtain ⟨k, body, trace, e', -, -, -, he', -, -, _, rfl⟩ := (finish_tells b b' htells).ok hf
    rw [solve_eq_ok.2 ⟨_, _, Strategy.solve_eq_ok.2 ⟨t, ht, he'⟩, rfl⟩]
    rfl

/-- What the report of a solve shows and keeps, compared with that of another one: the two solves
have the same errors and the same outcome but for the report, and after every step the same state
but for it; there are lines, namely the heading, those of each step in turn and the result, of which
each solve prints those up to its level; and a trace that is kept has an entry for each step. -/
theorem solve_reported (a : Algorithm σ R K) (c : Setup σ R K) (world : σ) (d d' : Int)
    (b b' : Bool) :
    (a.solve (c.reporting d' b') world).map Outcome.untold =
        (a.solve (c.reporting d b) world).map Outcome.untold ∧
      ∀ r, Run.start a.strategy (c.reporting d b) world = .ok r →
        ∃ t, Run.start a.strategy (c.reporting d' b') world = .ok t ∧
          let stage := Run.stage a.strategy (c.reporting d b) (r.headed a.strategy)
          let stage' := Run.stage a.strategy (c.reporting d' b') (t.headed a.strategy)
          (∀ n, ((Run.loop a.strategy (c.reporting d' b') n).eval (t.headed a.strategy)).1 =
              ((Run.loop a.strategy (c.reporting d b) n).eval (r.headed a.strategy)).1 ∧
            stage' n = { stage n with
              styles := (stage' n).styles
              trace := (stage' n).trace
              printed := (stage' n).printed }) ∧
          ∀ o, a.solve (c.reporting d b) world = .ok o →
            ∃ o' body lines, a.solve (c.reporting d' b') world = .ok o' ∧
              Run.Narrative (c.reporting d b) stage o.solution.stats.steps body ∧
              lines = Run.account a.strategy c r body (stage o.solution.stats.steps) ∧
              o.printed = Line.printed (Line.upTo d lines) ∧
              o'.printed = Line.printed (Line.upTo d' lines) ∧
              (d ≤ d' → Line.upTo d lines = Line.upTo d (Line.upTo d' lines)) ∧
              (b = true → o.solution.trace = (List.range o.solution.stats.steps).map fun i =>
                { step := i + 1
                  residualNorm := c.options.norm (stage (i + 1)).fu
                  stepNorm := c.options.norm ((stage (i + 1)).u - (stage i).u)
                  alpha := (stage (i + 1)).alpha }) := by
  refine ⟨a.solve_untold c world d d' b b', fun r hr => ?_⟩
  obtain ⟨t, ht, htells⟩ := start_tells d' b b' hr
  refine ⟨t, ht, fun n => ?_, fun o ho => ?_⟩
  · obtain ⟨hsame, more, -, -, trace, hstage⟩ := stage_tells b b' n (htells.headed a.strategy)
    exact ⟨hsame, by rw [hstage]⟩
  · obtain ⟨s, e, hs, rfl⟩ := solve_eq_ok.1 ho
    obtain ⟨r', hr', hf⟩ := Strategy.solve_eq_ok.1 hs
    cases hr.symm.trans hr'
    obtain ⟨k, body, trace, e', told, hsteps, htrace, he', -, hprinted, _, hsame⟩ :=
      (finish_tells b b' htells).ok hf
    have heq := Run.start_eq hr
    have hzero : (Run.stage a.strategy (c.reporting d b) (r.headed a.strategy) 0).steps = 0 :=
      congrArg (·.steps) heq
    have hempty : (Run.stage a.strategy (c.reporting d b) (r.headed a.strategy) 0).trace = [] :=
      congrArg (·.trace) heq
    have hk : s.stats.steps = k := by
      rw [hsteps, told.steps_eq, hzero, Nat.zero_add]
    subst hk
    refine ⟨_, body, _, solve_eq_ok.2 ⟨_, e', Strategy.solve_eq_ok.2 ⟨t, ht, he'⟩, rfl⟩, told, rfl,
      ?_, ?_, fun hle => (Line.upTo_upTo hle _).symm, fun hb => ?_⟩
    · exact hprinted.trans (String.empty_append ..)
    · exact (congrArg (·.printed) hsame).trans (String.empty_append ..)
    · rw [htrace, told.trace_eq hb, hzero, hempty]
      simp only [List.nil_append, Nat.zero_add]
      rfl

end Algorithm

/-- A solve of one step that shows the heading and the result and keeps the trace, and one that
shows all lines and does not keep it. -/
theorem recedingProblem_reported :
    ∃ r o o' lines,
      Run.start recedingNewton.strategy ((recedingSetup 1).reporting 1 true) () = .ok r ∧
      recedingNewton.solve ((recedingSetup 1).reporting 1 true) () = .ok o ∧
      recedingNewton.solve ((recedingSetup 1).reporting 3 false) () = .ok o' ∧
      o'.solution.stats = o.solution.stats ∧
      o.printed = Line.printed (Line.upTo 1 lines) ∧
      o'.printed = Line.printed (Line.upTo 3 lines) ∧
      o.solution.trace.map TraceEntry.step = [1] := by
  have h : ((recedingNewton.solve ((recedingSetup 1).reporting 1 true) ()).toOption.map
      fun o => o.solution.stats.steps) = some 1 := by
    decide +kernel
  rcases ho : recedingNewton.solve ((recedingSetup 1).reporting 1 true) () with e | o
  · rw [ho] at h
    cases h
  · rw [ho] at h
    have hsteps : o.solution.stats.steps = 1 := Option.some.inj h
    obtain ⟨s, e, hs, -⟩ := Algorithm.solve_eq_ok.1 ho
    obtain ⟨r, hr, -⟩ := Strategy.solve_eq_ok.1 hs
    obtain ⟨huntold, hreported⟩ :=
      recedingNewton.solve_reported (recedingSetup 1) () 1 3 true false
    obtain ⟨t, -, -, htold⟩ := hreported r hr
    obtain ⟨o', body, lines, ho', -, -, hprinted, hprinted', -, htrace⟩ := htold o ho
    rw [ho, ho'] at huntold
    have hsame : o'.untold = o.untold := Except.ok.inj huntold
    refine ⟨r, o, o', lines, hr, rfl, ho', congrArg (·.solution.stats) hsame, hprinted, hprinted',
      ?_⟩
    rw [htrace rfl, hsteps, List.map_map]
    simp [List.range_succ]

end RootFinding
