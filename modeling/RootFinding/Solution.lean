import RootFinding.Failure

/-!
# Solutions

What a solve hands back: the final iterate and its residual in the shape of the problem, the return
code, the counters, the failure if there was one, and the trace of the steps if it was kept. A
solution that is not successful can be turned into the failure that explains it.
-/

namespace RootFinding

/-- The counters of a solve. -/
structure Stats where
  /-- How often the residual was called. -/
  evaluations : Nat := 0
  jacobians : Nat := 0
  factorizations : Nat := 0
  solves : Nat := 0
  steps : Nat := 0
  deriving DecidableEq, Repr

def Stats.describe (s : Stats) : String :=
  s!"NLStats(nf={s.evaluations}, njacs={s.jacobians}, nfactors={s.factorizations}, " ++
    s!"nsolve={s.solves}, nsteps={s.steps})"

/-- One step in the trace of a solve. -/
structure TraceEntry (R : Type) where
  step : Nat
  residualNorm : R
  stepNorm : R
  alpha : R

structure Solution (R K : Type) where
  u : Tensor K
  residual : Tensor K
  code : ReturnCode
  stats : Stats
  error : Option (Failure R K) := none
  trace : List (TraceEntry R) := []

namespace Solution

variable {R K : Type}

def success (s : Solution R K) : Bool := s.code.successful

def residualNorm [Scalar R] [Entry R K] (s : Solution R K) : R := s.residual.entries.norm

/-- The failure for a return code when none was stored. -/
def codeFailure (s : Solution R K) : Failure R K :=
  let message :=
    if s.code = .maxIters then s!"Reached maximum iteration limit: {s.stats.steps}"
    else s!"Solve terminated with {s.code.name}."
  { kind := if s.code = .maxIters then .iterationLimit else .general
    values := [.text message]
    flag := some s.code.value
    named := [("u", .array s.u)] }

/-- Why the solve is not successful: the stored failure, or one made of the return code. -/
def failure? (s : Solution R K) : Option (Failure R K) :=
  if s.success then none else some (s.error.getD s.codeFailure)

end Solution

end RootFinding
