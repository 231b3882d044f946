import RootFinding.Proofs.Calls
import RootFinding.Proofs.Elimination
import RootFinding.Proofs.Merit
import RootFinding.Proofs.Reuse
import RootFinding.Proofs.Safe

/-!
# The costs of a step

How many evaluations, Jacobians, factorisations and solves lie between two states of a workspace,
where a direct method is used and the Jacobian is the caller's.

* `Workspace.Spends k w w'`: the counters have gone from those of `w` to those of `w'` by `k`. Costs
  add up along a sequence.
* `Problem.evaluate_spends`, `Problem.jacobianAt_spends`, `LinearSystem.factorize_spends`,
  `LinearSystem.solve_spends`: each routine counts itself once and nothing else.
* `Newton.step_spends` and its likes: the costs of the steps.
* `SpectralResidual.Found a c r p t`: from `r` a step has found its trial at the place `p`. Its cost
  is the number of trials up to there.
-/

namespace RootFinding

open Action

variable {σ R K X α β : Type}

/-! ## Counters -/

attribute [ext] Stats

/-- The counters of two pieces of work together. -/
instance Stats.instAdd : Add Stats where
  add s t :=
    { evaluations := s.evaluations + t.evaluations
      jacobians := s.jacobians + t.jacobians
      factorizations := s.factorizations + t.factorizations
      solves := s.solves + t.solves
      steps := s.steps + t.steps }

namespace Stats

theorem add_assoc (s t u : Stats) : s + t + u = s + (t + u) :=
  Stats.ext (Nat.add_assoc ..) (Nat.add_assoc ..) (Nat.add_assoc ..) (Nat.add_assoc ..)
    (Nat.add_assoc ..)

theorem zero_add (s : Stats) : {} + s = s :=
  Stats.ext (Nat.zero_add _) (Nat.zero_add _) (Nat.zero_add _) (Nat.zero_add _) (Nat.zero_add _)

/-- The counters of a list of pieces of work. -/
def total (l : List Stats) : Stats where
  evaluations := (l.map (·.evaluations)).sum
  jacobians := (l.map (·.jacobians)).sum
  factorizations := (l.map (·.factorizations)).sum
  solves := (l.map (·.solves)).sum
  steps := (l.map (·.steps)).sum

theorem total_concat (l : List Stats) (s : Stats) : total (l ++ [s]) = total l + s := by
  have hsum : ∀ f : Stats → Nat, ((l ++ [s]).map f).sum = (l.map f).sum + f s := fun f => by simp
  exact Stats.ext (hsum _) (hsum _) (hsum _) (hsum _) (hsum _)

end Stats

namespace Workspace

/-- The counters of a workspace. -/
def stats (w : Workspace σ R K) : Stats where
  evaluations := w.evaluations
  jacobians := w.jacobians
  factorizations := w.system.factorizations
  solves := w.system.solves

/-- The method of the linear system is a direct one, if it has been chosen. -/
def IsDirect (w : Workspace σ R K) : Prop := ∀ M ∈ w.system.method, M.IsDirect

/-- The stored Jacobian is formed, and the linear system has chosen its method with its matrix. -/
structure Tidy (w : Workspace σ R K) : Prop where
  formed : ∀ J ∈ w.jacobian, ¬J.IsFree
  chosen : w.system.method = none → w.system.matrix = none

/-- What leads from `w` to `w'` has the given cost, provided that a direct method is used. -/
structure Spends (cost : Stats) (w w' : Workspace σ R K) : Prop where
  tidy : w.Tidy → w'.Tidy
  kept : ∀ M ∈ w.system.method, M ∈ w'.system.method
  stats : w.Tidy → w'.IsDirect → w'.stats = w.stats + cost

/-- The stored Jacobian, and the method and the matrix of the linear system. -/
def holdings (w : Workspace σ R K) :
    Option (Matrix R K) × Option SolveMethod × Option (Matrix R K) :=
  (w.jacobian, w.system.method, w.system.matrix)

variable {w w' w'' : Workspace σ R K} {k l : Stats}

theorem Tidy.of_holdings (hw : w.Tidy) (h : w'.holdings = w.holdings) : w'.Tidy := by
  simp only [holdings, Prod.mk.injEq] at h
  obtain ⟨hjacobian, hmethod, hmatrix⟩ := h
  exact ⟨hjacobian ▸ hw.formed, by rw [hmethod, hmatrix]; exact hw.chosen⟩

theorem IsDirect.of_holdings (hw : w.IsDirect) (h : w'.holdings = w.holdings) : w'.IsDirect := by
  have hmethod : w'.system.method = w.system.method := congrArg (·.2.1) h
  unfold IsDirect
  rw [hmethod]
  exact hw

theorem Spends.of_holdings (h : w'.holdings = w.holdings)
    (hstats : w.Tidy → w'.IsDirect → w'.stats = w.stats + k) : w.Spends k w' where
  tidy hw := hw.of_holdings h
  kept _ hM := (congrArg (·.2.1) h).trans hM
  stats := hstats

/-- A method that is a direct one in the end has been so from the beginning. -/
theorem Spends.direct (h : w.Spends k w') (hw' : w'.IsDirect) : w.IsDirect := fun M hM =>
  hw' M (h.kept M hM)

/-- A direct method that was chosen before is still there. -/
theorem Spends.isDirect (h : w.Spends k w') {M : SolveMethod} (hM : M ∈ w.system.method)
    (hdirect : M.IsDirect) : w'.IsDirect := fun N hN => by
  cases (h.kept M hM).symm.trans hN
  exact hdirect

theorem Spends.refl (w : Workspace σ R K) : w.Spends {} w := .of_holdings rfl fun _ _ => rfl

theorem Spends.trans (h : w.Spends k w') (h' : w'.Spends l w'') : w.Spends (k + l) w'' where
  tidy hw := h'.tidy (h.tidy hw)
  kept M hM := h'.kept M (h.kept M hM)
  stats hw hw'' := by
    rw [h'.stats (h.tidy hw) hw'', h.stats hw (h'.direct hw''), Stats.add_assoc]

/-- Past something without a cost. -/
theorem Spends.free (h : w.Spends {} w') (h' : w'.Spends k w'') : w.Spends k w'' := by
  have := h.trans h'
  rwa [Stats.zero_add] at this

end Workspace

/-! ## Routines -/

section Routines

variable [Scalar R] [Entry R K] {p : Problem σ R K}

theorem Problem.evaluate_holdings (p : Problem σ R K) (u : Vec K) :
    Keeps Workspace.holdings (p.evaluate u) := fun w =>
  congrArg (fun x => (x.1, x.2.method, x.2.matrix)) (p.evaluate_keeps u w)

omit [Scalar R] [Entry R K] in
theorem Workspace.call_spends (f : Callable σ R K α β) (x : α) (w : Workspace σ R K) :
    (call f x).Ends w (fun _ w' => w.Spends {} w') (fun _ _ => True) := by
  rw [call, ends_ofFun]
  refine ⟨fun y w' h => ?_, fun _ _ _ => trivial⟩
  obtain ⟨-, rfl⟩ := Prod.mk.inj h
  exact .of_holdings rfl fun _ _ => rfl

theorem Problem.evaluate_spends (p : Problem σ R K) (u : Vec K) (w : Workspace σ R K) :
    (p.evaluate u).Ends w (fun _ w' => w.Spends { evaluations := 1 } w') (fun _ _ => True) := by
  have hcalled : ∀ {α : Type} (f : Callable σ R K α (Tensor K)) (x : α),
      (Workspace.call f x).Ends { w with evaluations := w.evaluations + 1 }
        (fun t w' => w.Spends { evaluations := 1 }
          { w' with residualShape := some (w'.residualShape.getD t.shape) }) (fun _ _ => True) := by
    intro α f x
    rw [Workspace.call, ends_ofFun]
    refine ⟨fun t w' h => ?_, fun _ _ _ => trivial⟩
    obtain ⟨-, rfl⟩ := Prod.mk.inj h
    exact .of_holdings rfl fun _ _ => rfl
  simp only [Problem.evaluate, ends_bind, ends_ofFault, ends_modify, ends_mapError, ends_pure]
  refine ⟨fun x _ => ?_, fun _ _ => trivial⟩
  split <;> exact hcalled _ _

/-- The caller's Jacobian is formed, and costs no evaluation. -/
theorem Problem.jacobianAt_spends (hjacobian : p.jacobian.isSome) (s : JacobianSettings R)
    (u : Vec K) (fu : Option (Vec K)) (w : Workspace σ R K) :
    (p.jacobianAt s u fu).Ends w (fun J w' => w.Spends { jacobians := 1 } w' ∧ ¬J.IsFree)
      (fun _ _ => True) := by
  obtain ⟨jac, hjac⟩ := Option.isSome_iff_exists.1 hjacobian
  simp only [jacobianAt, rawJacobian, hjac, analyticJacobian, ends_bind, ends_mapError,
    ends_ofFault, Workspace.call, ends_ofFun, ends_pure]
  refine ⟨fun x _ => ⟨fun J w' h => ?_, fun _ _ _ => trivial⟩, fun _ _ => trivial⟩
  obtain ⟨-, rfl⟩ := Prod.mk.inj h
  split
  · trivial
  · refine ⟨⟨fun hw => ⟨fun J' hJ' => ?_, hw.chosen⟩, fun _ h => h, fun _ _ => rfl⟩, J.not_isFree⟩
    cases hJ'
    exact J.not_isFree

/-- A product with a formed matrix costs nothing. -/
theorem Matrix.apply_spends {J : Matrix R K} (v : Vec K) {w : Workspace σ R K}
    (hJ : w.Tidy → ¬J.IsFree) :
    (J.apply p.evaluate v).Ends w (fun _ w' => w.Spends {} w') (fun _ _ => True) := by
  have hkeeps := (J.apply_keeps p.evaluate_holdings v).ends w
  have hstats : (J.apply p.evaluate v).Ends w (fun _ w' => w.Tidy → w'.stats = w.stats)
      (fun _ _ => True) := by
    have hidle : ∀ t, t = w → w.Tidy → t.stats = w.stats := fun t ht _ => by rw [ht]
    cases J with
    | dense A => exact .guard (I := (· = w)) (fun _ => trivial) (fun _ => rfl) hidle
    | sparse A => exact .guard (I := (· = w)) (fun _ => trivial) (fun _ => rfl) hidle
    | free A => exact ends_iff.2 ⟨fun _ _ _ hw => (hJ hw trivial).elim, fun _ _ _ => trivial⟩
  exact (hkeeps.and hstats).mono (fun _ _ h => .of_holdings h.1 fun hw _ => h.2 hw)
    (fun _ _ _ => trivial)

/-- A line search without a method costs nothing. -/
theorem LineSearch.search_none {s : LineSearch σ R K} (h : s.method = .none)
    (F : Vec K → Work σ R K (Vec K)) (x : SearchPoint K) : s.search F x = pure 1.0 := by
  unfold search
  rw [h]

namespace LinearSystem

omit [Entry R K] in
theorem factorize_spends (B : Backend σ R K) (A : Matrix R K) (w : Workspace σ R K) :
    (factorize B A).Ends w (fun _ w' => w.Spends { factorizations := 1 } w') (fun _ _ => True) := by
  refine (factorize_spec B A w).mono (fun _ t ht => ?_) fun _ _ _ => trivial
  obtain ⟨factors, -, rfl⟩ := ht
  have hmethod := factorized_method w.system A (w.system.method.getD (.forMatrix A)) factors
  refine ⟨fun hw => ⟨hw.formed, fun hnone => ?_⟩, fun N hN => ?_, fun _ hdirect => ?_⟩
  · rw [hmethod] at hnone
    cases hnone
  · rw [hmethod, Option.mem_def.1 hN]
    rfl
  · -- the method is a direct one, and those count
    have hcounts := hdirect _ hmethod
    generalize w.system.method.getD (SolveMethod.forMatrix A) = M at hcounts
    cases M with
    | lu | splu => rfl
    | gmres | lstsq => exact hcounts.elim

theorem solve_spends {c : Setup σ R K} (hB : c.backend.Frames) (b : Vec K) (w : Workspace σ R K) :
    (solve c.backend c.problem.evaluate b).Ends w (fun _ w' => w.Spends { solves := 1 } w')
      (fun _ _ => True) := by
  have hkeeps := (solve_keeps_unsolved (fun _ _ _ _ => rfl) hB c.problem.evaluate_holdings b).ends w
  have hstats : (solve c.backend c.problem.evaluate b).Ends w
      (fun _ w' => w.Tidy → w.IsDirect → w'.stats = w.stats + { solves := 1 })
      (fun _ _ => True) := by
    simp only [solve, ends_bind, ends_get]
    split
    · trivial
    next A hA =>
      have hanswer : ∀ r : Except Fault (Vec K), Ends (do answer (← Action.ofFault r))
          { w with system := { w.system with solves := w.system.solves + 1 } }
          (fun _ w' => w.Tidy → w.IsDirect → w'.stats = w.stats + { solves := 1 })
          (fun _ _ => True) := by
        intro r
        rw [ends_bind, ends_ofFault]
        refine ⟨fun x _ => ?_, fun _ _ => trivial⟩
        unfold answer
        split
        · trivial
        · exact fun _ _ => rfl
      have hother : ∀ b : Work σ R K (Vec K),
          ¬(w.system.method.getD (SolveMethod.forMatrix A)).IsDirect → b.Ends
            { w with system := { w.system with solves := w.system.solves + 1 } }
            (fun _ w' => w.Tidy → w.IsDirect → w'.stats = w.stats + { solves := 1 })
            (fun _ _ => True) := fun b hM => by
        refine ends_iff.2 ⟨fun _ _ _ hw hdirect => absurd ?_ hM, fun _ _ _ => trivial⟩
        cases hmethod : w.system.method with
        | none =>
          rw [hw.chosen hmethod] at hA
          cases hA
        | some M => exact hdirect M hmethod
      rw [ends_bind, change, ends_modify]
      cases hM : w.system.method.getD (SolveMethod.forMatrix A) with
      | lu => exact hanswer _
      | splu => exact hanswer _
      | gmres => exact hother _ (by rw [hM]; exact id)
      | lstsq => exact hother _ (by rw [hM]; exact id)
  exact (hkeeps.and hstats).mono
    (fun _ _ h => .of_holdings h.1 fun hw hw' => h.2 hw (hw'.of_holdings h.1.symm))
    (fun _ _ _ => trivial)

end LinearSystem

end Routines

/-! ## Steps -/

section Steps

variable [Scalar R] [Entry R K] {c : Setup σ R K}

namespace Newton

variable {a : Newton σ R K} {r s : Run σ R K (State σ R K)}

theorem Renewed.spends (hjacobian : c.problem.jacobian.isSome) (h : Renewed a c r s) :
    r.work.Spends { jacobians := (NeedsJacobian c r).toNat
                    factorizations := (NeedsJacobian c r).toNat } s.work := by
  cases h with
  | kept needed =>
    rw [needed]
    exact .refl _
  | built J w w' needed made factorized =>
    rw [needed]
    exact ((Problem.jacobianAt_spends hjacobian _ _ _ _).ok made).1.trans
      ((LinearSystem.factorize_spends _ _ _).ok factorized)

/-- A step solves once and evaluates once; a Jacobian that the policy asks for is factorised. -/
theorem step_spends (hB : c.backend.Frames) (hjacobian : c.problem.jacobian.isSome)
    (a : Newton σ R K) {r : Run σ R K (State σ R K)} (hsearch : r.ext.search.method = .none) :
    (a.step c).Ends r (fun _ t => r.work.Spends
      { evaluations := 1
        jacobians := (NeedsJacobian c r).toNat
        factorizations := (NeedsJacobian c r).toNat
        solves := 1 } t.work) (fun _ _ => True) := by
  rw [step, ends_bind]
  refine (renew_renewed r).mono (fun _ s hs => ?_) (fun _ _ h => h)
  have hnone : s.ext.search.method = .none := by cases hs <;> exact hsearch
  simp only [direction, advance, ends_bind, ends_get, ends_modify, Run.ends_onWork,
    Run.ends_evaluate, Run.ends_moveTo, Run.ends_update, ends_ofFault,
    LineSearch.search_none hnone, ends_pure]
  refine ⟨fun b _ => ?_, fun _ _ => trivial⟩
  refine (LinearSystem.solve_spends hB b _).mono (fun du w₁ h₁ => ?_) (fun _ _ h => h)
  refine (c.problem.evaluate_spends _ w₁).mono (fun fu w₂ h₂ => ?_) (fun _ _ h => h)
  refine ⟨fun way _ => ?_, fun _ _ => trivial⟩
  refine (Run.check_frame _).mono (fun _ t ht => ?_) (fun _ _ _ => trivial)
  obtain ⟨checker, code, stopped, rfl⟩ := ht
  exact ((hs.spends hjacobian).trans h₁).trans h₂

end Newton

namespace PseudoTransient

theorem step_spends (hB : c.backend.Frames) (hjacobian : c.problem.jacobian.isSome)
    (r : Run σ R K (State R K)) :
    (step c).Ends r (fun _ t => r.work.Spends
      { evaluations := 1, jacobians := 1, factorizations := 1, solves := 1 } t.work)
      (fun _ _ => True) := by
  simp only [step, direction, ends_bind, ends_get, ends_modify, Run.ends_onWork, Run.ends_evaluate,
    Run.ends_moveTo, ends_ofFault]
  refine (Problem.jacobianAt_spends hjacobian _ _ _ _).mono (fun J w₁ h₁ => ?_) (fun _ _ h => h)
  refine ⟨fun shift _ => ⟨fun A _ => ?_, fun _ _ => trivial⟩, fun _ _ => trivial⟩
  refine (LinearSystem.factorize_spends _ A w₁).mono (fun _ w₂ h₂ => ?_) (fun _ _ h => h)
  refine (LinearSystem.solve_spends hB _ w₂).mono (fun du w₃ h₃ => ?_) (fun _ _ h => h)
  refine (c.problem.evaluate_spends _ w₃).mono (fun fu w₄ h₄ => ?_) (fun _ _ h => h)
  have hspends := ((h₁.1.trans h₂).trans h₃).trans h₄
  refine (Run.check_frame _).mono (fun converged s hs => ?_) (fun _ _ _ => trivial)
  obtain ⟨checker, code, stopped, rfl⟩ := hs
  split
  · exact hspends
  · refine (adapt_work.ends _).mono (fun _ t ht => ?_) (fun _ _ _ => trivial)
    rw [show t.work = w₄ from ht]
    exact hspends

end PseudoTransient

namespace TrustRegion

theorem remodel_spends (hB : c.backend.Frames) (hjacobian : c.problem.jacobian.isSome)
    (r : Run σ R K (State R K)) :
    (remodel c).Ends r (fun _ t => r.work.Spends
      { jacobians := 1, factorizations := 1, solves := 1 } t.work) (fun _ _ => True) := by
  simp only [remodel, ends_bind, ends_get, Run.ends_onWork, ends_ofFault, Run.ends_update]
  refine (Problem.jacobianAt_spends hjacobian _ _ _ _).mono (fun J w₁ h₁ => ?_) (fun _ _ h => h)
  refine (LinearSystem.factorize_spends _ J w₁).mono (fun _ w₂ h₂ => ?_) (fun _ _ h => h)
  refine (LinearSystem.solve_spends hB _ w₂).mono (fun x w₃ h₃ => ?_) (fun _ _ h => h)
  refine ⟨fun gradient _ => ?_, fun _ _ => trivial⟩
  refine (Matrix.apply_spends gradient fun _ => h₁.2).mono (fun image w₄ h₄ => ?_) (fun _ _ h => h)
  exact ((h₁.1.trans h₂).trans h₃).trans h₄

theorem trial_spends (r : Run σ R K (State R K)) :
    (trial c).Ends r (fun _ t => r.work.Spends { evaluations := 1 } t.work) (fun _ _ => True) := by
  simp only [trial, ends_bind, ends_get, ends_ofFault, Run.ends_onWork, Run.ends_evaluate,
    ends_pure]
  refine ⟨fun x hx => ⟨fun du _ => ?_, fun _ _ => trivial⟩, fun _ _ => trivial⟩
  have hstored : r.work.jacobian = some x.2 := by
    unfold kept at hx
    split at hx
    next hJ =>
      cases hx
      exact hJ
    next => cases hx
  have hevaluated := (c.problem.evaluate_spends (r.u + du) r.work).and
    ((c.problem.evaluate_keeps (r.u + du)).ends r.work)
  refine hevaluated.mono (fun fu w₁ h₁ => ?_) (fun _ _ _ => trivial)
  have hformed : w₁.Tidy → ¬x.2.IsFree := fun hw =>
    hw.formed x.2 ((congrArg Prod.fst h₁.2).trans hstored)
  exact (Matrix.apply_spends du hformed).mono (fun change w₂ h₂ => h₁.1.trans h₂) (fun _ _ h => h)

/-- A proposal makes a new model after a step that was taken, and evaluates once. -/
theorem propose_spends (hB : c.backend.Frames) (hjacobian : c.problem.jacobian.isSome)
    (r : Run σ R K (State R K)) :
    (propose c).Ends r (fun _ t => r.work.Spends
      { evaluations := 1
        jacobians := r.ext.renew.toNat
        factorizations := r.ext.renew.toNat
        solves := r.ext.renew.toNat } t.work) (fun _ _ => True) := by
  rw [propose, ends_bind, ends_get]
  split
  next hrenew =>
    rw [hrenew]
    refine (remodel_spends hB hjacobian r).bind (fun _ s hs => ?_) (fun _ _ h => h)
    exact (trial_spends s).mono (fun _ t ht => hs.trans ht) (fun _ _ h => h)
  next hrenew =>
    rw [(Bool.not_eq_true _).mp hrenew]
    exact trial_spends r

theorem Verdict.spends (hB : c.backend.Frames) (hjacobian : c.problem.jacobian.isSome)
    {r s t : Run σ R K (State R K)} {x : Trial R K} {accepted : Bool}
    (h : Verdict c r x s accepted t) :
    r.work.Spends
      { evaluations := 1
        jacobians := r.ext.renew.toNat
        factorizations := r.ext.renew.toNat
        solves := r.ext.renew.toNat } t.work := by
  rw [h.work]
  exact (propose_spends hB hjacobian r).ok h.proposed

end TrustRegion

namespace LevenbergMarquardt

variable {a : LevenbergMarquardt R}

theorem Modelled.spends (hjacobian : c.problem.jacobian.isSome) {r s : Run σ R K (State R K)}
    {J A : Matrix R K} (h : Modelled c r J A s) :
    r.work.Spends { jacobians := r.ext.renew.toNat } s.work := by
  cases h with
  | kept renew =>
    rw [renew]
    exact .refl _
  | renewed w renew made =>
    rw [renew]
    exact ((Problem.jacobianAt_spends hjacobian _ _ _ _).ok made).1

/-- Without a correction a step factorises, solves and evaluates once. -/
theorem verdict_spends (hB : c.backend.Frames) (hplain : a.geodesic.active = false)
    (J A : Matrix R K) (s : Run σ R K (State R K)) :
    (a.verdict c J A).Ends s (fun _ t => s.work.Spends
      { evaluations := 1, factorizations := 1, solves := 1 } t.work) (fun _ _ => True) := by
  have hstep : ∀ v, a.correctedStep c J v = (pure (some v) : Stepping σ R K (State R K) _) := by
    intro v
    unfold correctedStep
    rw [hplain]
    rfl
  simp only [verdict, velocity, hstep, ends_bind, ends_get, ends_ofFault, Run.ends_update,
    Run.ends_onWork, ends_pure, attempt, Run.ends_evaluate]
  refine ⟨fun gradient _ => ?_, fun _ _ => trivial⟩
  refine (LinearSystem.factorize_spends _ _ _).mono (fun _ w₁ h₁ => ?_) (fun _ _ h => h)
  refine (LinearSystem.solve_spends hB _ w₁).mono (fun x w₂ h₂ => ?_) (fun _ _ h => h)
  refine (c.problem.evaluate_spends _ w₂).mono (fun fu w₃ h₃ => ?_) (fun _ _ h => h)
  refine ⟨fun taken _ => ?_, fun _ _ => trivial⟩
  cases taken <;> exact (h₁.trans h₂).trans h₃

theorem step_spends (hB : c.backend.Frames) (hjacobian : c.problem.jacobian.isSome)
    (hplain : a.geodesic.active = false) (r : Run σ R K (State R K)) :
    (a.step c).Ends r (fun _ t => r.work.Spends
      { evaluations := 1, jacobians := r.ext.renew.toNat, factorizations := 1, solves := 1 }
        t.work) (fun _ _ => True) := by
  rw [step_eq]
  refine (model_modelled r).bind (fun x s hs => ?_) (fun _ _ h => h)
  refine (verdict_spends hB hplain _ _ s).bind (fun taken t ht => ?_) (fun _ _ h => h)
  refine (settle_adapted taken t).mono (fun _ t' ht' => ?_) (fun _ _ h => h)
  rw [ht'.2.2.1]
  exact (hs.spends hjacobian).trans ht

end LevenbergMarquardt

namespace SpectralResidual

/-- The place of a trial in a search: ahead of the iterate or behind it, in one of the rounds, which
are counted from one. -/
inductive Place where
  | ahead (round : Nat)
  | behind (round : Nat)

namespace Place

/-- The same place, one round later. -/
def next : Place → Place
  | ahead i => ahead (i + 1)
  | behind i => behind (i + 1)

/-- The number of trials up to a place. -/
def trials : Place → Nat
  | ahead i => 2 * i - 1
  | behind i => 2 * i

end Place

/-- From a trial at the part `ahead` of the step, with `behind` the part to try on the other side,
a search has refused all trials before the one at a place, and has answered that one with its
part. -/
inductive Finds (a : SpectralResidual σ R K) (c : Setup σ R K) (q : Search R K) :
    R → R → Trial R K → Run σ R K (State R) → Place → Trial R K × R → Run σ R K (State R) → Prop
  | ahead {ahead behind : R} {t : Trial R K} {r : Run σ R K (State R)}
    (accepted : q.accepts a.decrease ahead t.merit = true) :
    Finds a c q ahead behind t r (.ahead 1) (t, ahead) r
  | behind {ahead behind : R} {t t' : Trial R K} {r r' : Run σ R K (State R)}
    (refused : q.accepts a.decrease ahead t.merit = false)
    (tried : (a.trialAt c (q.u - behind • q.d)).eval r = (.ok t', r'))
    (accepted : q.accepts a.decrease behind t'.merit = true) :
    Finds a c q ahead behind t r (.behind 1) (t', -behind) r'
  | next {ahead behind nextAhead nextBehind : R} {t t' t'' : Trial R K}
    {r r' r'' s : Run σ R K (State R)} {p : Place} {x : Trial R K × R}
    (refused : q.accepts a.decrease ahead t.merit = false)
    (tried : (a.trialAt c (q.u - behind • q.d)).eval r = (.ok t', r'))
    (refusedBehind : q.accepts a.decrease behind t'.merit = false)
    (reduced : a.reduce q ahead t.merit = .ok nextAhead)
    (reducedBehind : a.reduce q behind t'.merit = .ok nextBehind)
    (triedAhead : (a.trialAt c (q.u + nextAhead • q.d)).eval r' = (.ok t'', r''))
    (finds : Finds a c q nextAhead nextBehind t'' r'' p x s) :
    Finds a c q ahead behind t r p.next x s

variable {a : SpectralResidual σ R K} {q : Search R K}

theorem search_finds (fuel : Nat) (ahead behind : R) (t : Trial R K) (r : Run σ R K (State R)) :
    (a.search c q fuel ahead behind t).Ends r
      (fun x s => ∃ p, Finds a c q ahead behind t r p x s) (fun _ _ => True) := by
  induction fuel generalizing ahead behind t r with
  | zero => simp only [search, ends_bind, ends_get, ends_fail]
  | succ fuel ih =>
    unfold search
    split
    next haccepted => exact ⟨_, .ahead haccepted⟩
    next hrefused =>
      simp only [ends_bind, ends_ofFault]
      refine ⟨fun nextAhead hahead => ?_, fun _ _ => trivial⟩
      refine ends_iff.2 ⟨fun t' r' htried => ?_, fun _ _ _ => trivial⟩
      have hrefused : q.accepts a.decrease ahead t.merit = false := by simpa using hrefused
      split
      next haccepted => exact ⟨_, .behind hrefused htried haccepted⟩
      next hrefused' =>
        simp only [ends_bind, ends_ofFault]
        refine ⟨fun nextBehind hbehind => ?_, fun _ _ => trivial⟩
        refine ends_iff.2 ⟨fun t'' r'' htried' => ?_, fun _ _ _ => trivial⟩
        have hrefused' : q.accepts a.decrease behind t'.merit = false := by simpa using hrefused'
        refine (ih nextAhead nextBehind t'' r'').mono (fun x s h => ?_) (fun _ _ h => h)
        obtain ⟨p, hp⟩ := h
        exact ⟨p.next, .next hrefused htried hrefused' hahead hbehind htried' hp⟩

theorem trialAt_spends (a : SpectralResidual σ R K) (u : Vec K) (r : Run σ R K (State R)) :
    (a.trialAt c u).Ends r (fun _ s => r.work.Spends { evaluations := 1 } s.work)
      (fun _ _ => True) := by
  simp only [trialAt, ends_bind, Run.ends_evaluate, ends_pure]
  exact c.problem.evaluate_spends u r.work

/-- The trials after the first one are those that a search evaluates. -/
theorem Finds.spends {ahead behind : R} {t : Trial R K} {r s : Run σ R K (State R)} {p : Place}
    {x : Trial R K × R} (h : Finds a c q ahead behind t r p x s) :
    ∃ n, p.trials = n + 1 ∧ r.work.Spends { evaluations := n } s.work := by
  induction h with
  | ahead => exact ⟨0, rfl, .refl _⟩
  | behind _ tried => exact ⟨1, rfl, (a.trialAt_spends _ _).ok tried⟩
  | @next _ _ _ _ _ _ _ _ _ _ _ p _ _ tried _ _ _ triedAhead _ ih =>
    obtain ⟨n, htrials, hspends⟩ := ih
    refine ⟨1 + 1 + n, ?_,
      (((a.trialAt_spends _ _).ok tried).trans ((a.trialAt_spends _ _).ok triedAhead)).trans
        hspends⟩
    cases p <;> simp only [Place.next, Place.trials] at htrials ⊢ <;> omega

/-- The search of a step from `r` with the tolerance `η`. -/
def searchFrom (a : SpectralResidual σ R K) (c : Setup σ R K) (r : Run σ R K (State R)) (η : R) :
    Search R K where
  u := r.u
  d := (-r.ext.spectral) • r.fu
  old := a.meritOf c r.fu
  limit := r.ext.largest + η

/-- A step from `r` has found its trial at a place and has left `t` there. -/
inductive Found (a : SpectralResidual σ R K) (c : Setup σ R K) (r : Run σ R K (State R)) (p : Place)
    (t : Run σ R K (State R)) : Prop
  | mk (η : R) (r₁ r₂ s : Run σ R K (State R)) (first : Trial R K) (x : Trial R K × R)
    (tolerance : (a.toleranceAt (context r)).eval r = (.ok η, r₁))
    (tried : (a.trialAt c (r.u + (1.0 : R) • (searchFrom a c r η).d)).eval r₁ = (.ok first, r₂))
    (finds : Finds a c (searchFrom a c r η) 1.0 1.0 first r₂ p x s)
    (u : t.u = x.1.u) (fu : t.fu = x.1.fu) (alpha : t.alpha = x.2) (work : t.work = s.work)

theorem step_found (a : SpectralResidual σ R K) (r : Run σ R K (State R)) :
    (a.step c).Ends r (fun _ t => ∃ p, Found a c r p t) (fun _ _ => True) := by
  simp only [step, ends_bind, ends_get]
  refine ends_iff.2 ⟨fun η r₁ htolerance => ?_, fun _ _ _ => trivial⟩
  refine ends_iff.2 ⟨fun first r₂ htried => ?_, fun _ _ _ => trivial⟩
  refine (search_finds _ _ _ _ _).mono (fun x s h => ?_) (fun _ _ h => h)
  obtain ⟨p, hfinds⟩ := h
  simp only [Run.ends_update, ends_modify, Run.ends_moveTo, ends_pure]
  refine (Run.check_frame _).mono (fun _ t ht => ?_) (fun _ _ _ => trivial)
  obtain ⟨checker, code, stopped, rfl⟩ := ht
  exact ⟨p, .mk η r₁ r₂ s first x htolerance htried hfinds rfl rfl rfl rfl⟩

omit [Entry R K] in
theorem toleranceAt_spends (a : SpectralResidual σ R K) (x : StepContext R K)
    (r : Run σ R K (State R)) :
    (a.toleranceAt x).Ends r (fun _ s => r.work.Spends {} s.work) (fun _ _ => True) := by
  unfold toleranceAt
  split
  next rule _ =>
    rw [Run.ends_onWork]
    exact Workspace.call_spends rule x r.work
  next => exact .refl r.work

/-- A step evaluates its trials. -/
theorem Found.spends {r t : Run σ R K (State R)} {p : Place} (h : Found a c r p t) :
    r.work.Spends { evaluations := p.trials } t.work := by
  rcases h with ⟨η, r₁, r₂, s, first, x, htolerance, htried, hfinds, -, -, -, hwork⟩
  obtain ⟨n, htrials, hspends⟩ := hfinds.spends
  rw [hwork, htrials, Nat.add_comm]
  have hfirst := (a.trialAt_spends _ r₁).ok htried
  exact ((a.toleranceAt_spends _ r).ok htolerance).free (hfirst.trans hspends)

end SpectralResidual

end Steps

end RootFinding
