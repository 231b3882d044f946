import RootFinding.Strategy.Basic

/-!
# The loop

A run starts from the residual at the initial guess and takes steps until it is stopped or has used
up its steps. A failure of the solve inside a step never leaves the step: it is stored with its
return code and stops the run, and the run falls back to an earlier iterate when the present one is
not finite or the termination test keeps the best one. A fault leaves the step at once.
-/

namespace RootFinding

variable {σ R K X : Type} [Scalar R] [Entry R K]

namespace Run

/-- The workspace of a solve before its first evaluation. -/
def emptyWorkspace (world : σ) : Workspace σ R K := { world, system := .fresh none .standard }

/-- The state of a run at the initial guess, where the residual is `fu`. -/
def ofStart (c : Setup σ R K) (work : Workspace σ R K) (fu : Vec K) (ext : X) : Run σ R K X :=
  let u := c.problem.guess.entries
  let o := c.options
  { work, u, fu, ext
    previous := u
    du := u.zerosLike
    alpha := 1.0
    maxiters := o.maxiters
    checker := .ofStart o.termination fu u o.abstol o.reltol o.norm
    styles := .forSolve o.displayLevel }

/-- Starts a run. A negative limit of steps, a residual of the wrong length and what the strategy
refuses are refused, in this order; an error of the first residual leaves as it is. -/
def start (S : Strategy σ R K X) (c : Setup σ R K) (world : σ) :
    Except (Thrown R K) (Run σ R K X) :=
  if c.options.maxiters < 0 then .error (.fault (.refused .iterationLimit))
  else
    let u := c.problem.guess.entries
    match (c.problem.evaluate u).eval (emptyWorkspace world) with
    | (.error e, _) => .error e
    | (.ok fu, work) =>
      if !c.problem.leastSquares && fu.size != u.size then
        .error (.fault (.refused (.residualSize fu.size u.size)))
      else
        match S.start c u fu with
        | .error f => .error (.fault f)
        | .ok (system, ext) => .ok (ofStart c { work with system } fu ext)

/-- Falls back to an earlier iterate, if it is another one and has a residual. -/
def fallBack (c : Setup σ R K) : Stepping σ R K X Unit := do
  let r ← get
  let u := r.checker.fallback
  if u.same r.u then return
  match ← (evaluate c u : Stepping σ R K X _).attempt with
  | .ok fu => moveTo u fu
  | .error (.failure _) => return
  | .error (.fault e) => throw (.fault e)

/-- Ends a run with a failure. -/
def endWith (c : Setup σ R K) (f : Failure R K) : Stepping σ R K X Unit := do
  modify fun r => { r with error := some f, code := f.returnCode, stopped := true }
  notice (f.kind.name ++ ": " ++ (f.values.head?.map Datum.toText).getD "")
  let r ← get
  if r.checker.isSafe || !(r.u.isFinite && r.fu.isFinite) then fallBack c

/-- The line of the report for a step. -/
def stepText (steps : Nat) (residualNorm stepNorm alpha : R) (u : Vec K) : String :=
  let shown := Report.vecText u
  s!"Iteration {steps}: ||F(u)|| = " ++ Report.sciText residualNorm ++ ", ||Δu|| = " ++
    Report.sciText stepNorm ++ ", α = " ++ Written.write (.general 4) alpha ++
    (if shown.isEmpty then "" else ", u = " ++ shown)

/-- Counts and reports a step that began at `before`. -/
def record (c : Setup σ R K) (before : Vec K) : Stepping σ R K X Unit := do
  modify fun r => { r with steps := r.steps + 1 }
  let r ← get
  let residualNorm := c.options.norm r.fu
  let stepNorm := c.options.norm (r.u - before)
  if c.options.storeTrace then
    let entry : TraceEntry R := { step := r.steps, residualNorm, stepNorm, alpha := r.alpha }
    modify fun r => { r with trace := r.trace ++ [entry] }
  print "iteration" (stepText r.steps residualNorm stepNorm r.alpha r.u)

/-- One step of the strategy, whose failures end the run. -/
def step (S : Strategy σ R K X) (c : Setup σ R K) : Stepping σ R K X Unit := do
  let before := (← get).u
  match ← (S.step c).attempt with
  | .ok () => pure ()
  | .error (.failure f) => endWith c f
  | .error (.fault e) => throw (.fault e)
  record c before

/-- At most `fuel` steps, as long as the run is active. -/
def loop (S : Strategy σ R K X) (c : Setup σ R K) : Nat → Stepping σ R K X Unit
  | 0 => pure ()
  | fuel + 1 => do
    if (← get).isActive then
      step S c
      loop S c fuel

/-- The return code of a run that has ended without one. -/
def finalCode (r : Run σ R K X) : ReturnCode :=
  if r.code = .default then
    if r.maxiters ≤ r.steps then .maxIters else .success
  else r.code

/-- The line of the report for the result. -/
def resultText (c : Setup σ R K) (r : Run σ R K X) : String :=
  Report.ruledLine
    (r.code.name ++ ": ||F(u)|| = " ++ Report.sciText (c.options.norm r.fu) ++
      s!" after {r.steps} steps")
    none (some "-") (some 72) none

/-- Runs to the end and answers the solution. -/
def finish (S : Strategy σ R K X) (c : Setup σ R K) : Stepping σ R K X (Solution R K) := do
  let r ← get
  print "solver" s!"{S.name} - Solving {r.u.size} Equations:"
  loop S c (r.maxiters - r.steps).toNat
  modify fun r => { r with code := r.finalCode }
  let r ← get
  print "solver" (resultText c r)
  Action.ofFault (r.solution c.problem)

end Run

/-- A solve from the initial guess: the solution, and the run that it ends. -/
def Strategy.solve (S : Strategy σ R K X) (c : Setup σ R K) (world : σ) :
    Except (Thrown R K) (Solution R K × Run σ R K X) := do
  let r ← Run.start S c world
  match (Run.finish S c).eval r with
  | (.ok s, r) => return (s, r)
  | (.error e, _) => throw e

end RootFinding
