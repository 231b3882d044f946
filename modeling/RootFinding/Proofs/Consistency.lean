import RootFinding.Number
import RootFinding.Proofs.Starts

/-!
# The iterate and its residual

The present residual is that of the present iterate, at every boundary between steps and in the
solution, for a problem whose residual is a function `F` of the unknowns (`Problem.Computes`).

The invariant is `Run.Sound`: the residual fits the iterate, and the two iterates that the checks
remember are finite with a finite residual (`FiniteAt`). Every strategy preserves it through a
step and through every failure of one (`Strategy.IsSound`), because an iterate and its residual
change together, and a step that returns has ended with a check (`Strategy.Proceeds`).

What a run falls back to is a remembered iterate, so a solution is finite unless the remembered
iterate is numerically the present one and `F` tells the two apart.
-/

namespace RootFinding

open Action

variable {σ R K X : Type} [Scalar R] [Entry R K]
  {F : Vec K → Except (Thrown R K) (Vec K)} {c : Setup σ R K}

/-- The residual of the problem is the function `F` of the unknowns, whatever the caller's state. -/
def Problem.Computes (p : Problem σ R K) (F : Vec K → Except (Thrown R K) (Vec K)) : Prop :=
  ∀ u w, ((p.evaluate u).eval w).1 = F u

theorem Problem.Computes.eq_of_eval {p : Problem σ R K} (hF : p.Computes F) {u : Vec K}
    {w w' : Workspace σ R K} {x : Except (Thrown R K) (Vec K)}
    (h : (p.evaluate u).eval w = (x, w')) : F u = x := by
  rw [← hF u w, h]

theorem Problem.Computes.of_answered {p : Problem σ R K} (hF : p.Computes F) {u fu : Vec K}
    (h : p.Answered u fu) : F u = .ok fu := by
  obtain ⟨w, w', h⟩ := h
  exact hF.eq_of_eval h

/-- The residual in vectors of unknowns that a function of arrays gives. -/
def Problem.residualOf (p : Problem σ R K) (g : Tensor K → Except (Thrown R K) (Tensor K))
    (u : Vec K) : Except (Thrown R K) (Vec K) :=
  match p.restructure u with
  | .ok x => ((g x).mapError Thrown.ofResidual).map Tensor.entries
  | .error f => .error (.fault f)

/-- A residual function that answers without a look at the caller's state. -/
theorem Problem.computes_returning {p : Problem σ R K}
    {f : Callable σ R K (Tensor K) (Tensor K)} {g : Tensor K → Except (Thrown R K) (Tensor K)}
    (hp : p.residual = .returning f) (hf : ∀ t w, (f t w).1 = g t) :
    p.Computes (p.residualOf g) := by
  intro u w
  cases hx : p.restructure u with
  | error e => simp [evaluate, residualOf, eval_bind, hx]
  | ok x =>
    simp only [evaluate, residualOf, eval_bind, hx, hp, eval_ofFault_ok, eval_modify,
      eval_mapError, Workspace.call, eval_ofFun, hf]
    cases g x <;> rfl

/-- A finite point with a finite residual. -/
structure FiniteAt (F : Vec K → Except (Thrown R K) (Vec K)) (v : Vec K) : Prop where
  point : v.isFinite
  residual : ∃ f, F v = .ok f ∧ f.isFinite

/-! ## Checks -/

/-- `P` holds of the iterates that the checks remember. -/
structure Checker.Remembers (P : Vec K → Prop) (c : Checker R K) : Prop where
  best : P c.best
  lastFinite : P c.lastFinite

omit [Scalar R] [Entry R K] in
theorem Checker.Remembers.fallback {P : Vec K → Prop} {c : Checker R K} (h : c.Remembers P) :
    P c.fallback := by
  unfold Checker.fallback
  split
  · exact h.best
  · exact h.lastFinite

omit [Entry R K] in
theorem Checker.checkProgress_remembers {P : Vec K → Prop} {k : Checker R K} {u : Vec K}
    (objective criterion : R) (hu : P u) (h : k.Remembers P) :
    (checkProgress objective criterion u).Ends k (fun _ k' => k'.Remembers P)
      (fun _ k' => k'.Remembers P) := by
  have hbest : Checker.Remembers P { k with best := u, bestNorm := objective } :=
    ⟨hu, h.lastFinite⟩
  simp only [checkProgress, ends_bind, ends_get]
  split <;> split <;> simp only [ends_bind, ends_set, ends_get, ends_modify, ends_fail]
  · exact hbest
  · split <;> exact ⟨hbest.best, hbest.lastFinite⟩
  · exact h
  · split <;> exact ⟨h.best, h.lastFinite⟩

/-- A check remembers nothing but what it remembered and the iterate that it looks at, and that one
only if it and its residual are finite. -/
theorem Checker.check_remembers {P : Vec K → Prop} {k : Checker R K} {fu u : Vec K}
    (previous : Vec K) (hP : u.isFinite → fu.isFinite → P u) (h : k.Remembers P) :
    (Checker.check fu u previous).Ends k
      (fun _ k' => u.isFinite ∧ fu.isFinite ∧ k'.Remembers P) (fun _ k' => k'.Remembers P) := by
  simp only [Checker.check, ends_bind, ends_get]
  split
  next =>
    simp only [ends_bind, ends_ofFault, ends_fail]
    exact ⟨fun _ _ => h, fun _ _ => h⟩
  next hfinite =>
    obtain ⟨hfu, hu⟩ : fu.isFinite = true ∧ u.isFinite = true := by simpa using hfinite
    have hk : Checker.Remembers P { k with lastFinite := u } := ⟨h.best, hP hu hfu⟩
    simp only [ends_bind, ends_set]
    split
    · simp only [ends_ofFault]
      exact ⟨fun _ _ => ⟨hu, hfu, hk⟩, fun _ _ => hk⟩
    · simp only [ends_ofFault]
      exact ⟨fun _ _ => ⟨hu, hfu, hk⟩, fun _ _ => hk⟩
    · simp only [ends_bind, ends_ofFault]
      refine ⟨fun criterion _ => ?_, fun _ _ => hk⟩
      split
      · exact ⟨hu, hfu, hk⟩
      · split
        · rw [ends_bind]
          exact (checkProgress_remembers _ _ (hP hu hfu) hk).mono
            (fun _ _ h => ⟨hu, hfu, h⟩) (fun _ _ h => h)
        · exact ⟨hu, hfu, hk⟩

/-! ## The invariant -/

/-- The residual of a run is that of its iterate, and the remembered iterates are finite with a
finite residual. -/
structure Run.Sound (F : Vec K → Except (Thrown R K) (Vec K)) (r : Run σ R K X) : Prop where
  fits : F r.u = .ok r.fu
  remembers : r.checker.Remembers (FiniteAt F)

theorem Run.Sound.of_core {r t : Run σ R K X} (h : r.Sound F) (ht : t.core = r.core) :
    t.Sound F := by
  simp only [core, Prod.mk.injEq] at ht
  rcases ht with ⟨hu, hfu, hk⟩
  exact ⟨by rw [hu, hfu, h.fits], by rw [hk]; exact h.remembers⟩

/-- A run that has moved to an iterate with its residual. -/
theorem Run.Sound.moved {r t : Run σ R K X} (h : r.Sound F) (hfits : F t.u = .ok t.fu)
    (hk : t.checker = r.checker) : t.Sound F :=
  ⟨hfits, by rw [hk]; exact h.remembers⟩

/-- The present iterate and its residual are finite. -/
def Run.IsFinite (r : Run σ R K X) : Prop := r.u.isFinite ∧ r.fu.isFinite

/-- A check that answers has found finite values. -/
theorem Run.Tested.isFinite {b : Bool} {r t : Run σ R K X} (h : Run.Tested c b r t) :
    t.IsFinite := by
  have hcheck := (Checker.check_remembers (P := fun _ => True) t.previous (fun _ _ => trivial)
    ⟨trivial, trivial⟩).ok h.checked
  exact ⟨hcheck.1, hcheck.2.1⟩

theorem Run.IsFinite.of_core {r t : Run σ R K X} (h : r.IsFinite) (ht : t.core = r.core) :
    t.IsFinite := by
  simp only [core, Prod.mk.injEq] at ht
  rcases ht with ⟨hu, hfu, -⟩
  exact ⟨by rw [hu]; exact h.1, by rw [hfu]; exact h.2⟩

/-- Every step of a strategy keeps the invariant, and one that returns leaves finite values. -/
def Strategy.IsSound (S : Strategy σ R K X) (c : Setup σ R K)
    (F : Vec K → Except (Thrown R K) (Vec K)) : Prop :=
  ∀ r : Run σ R K X, r.Sound F →
    (S.step c).Ends r (fun _ t => t.Sound F ∧ t.IsFinite) (fun _ t => t.Sound F)

/-- A step moves to an iterate with its residual or stays, and its check remembers what it
remembered or the iterate that it has looked at. -/
theorem Strategy.Proceeds.isSound {S : Strategy σ R K X} (hS : S.Proceeds c)
    (hF : c.problem.Computes F) : S.IsSound c F := by
  intro r h
  have hfits : ∀ t : Run σ R K X, Run.Moved c r t → F t.u = .ok t.fu := fun t ht => by
    rcases ht with ⟨hu, hfu⟩ | hanswered
    · rw [hu, hfu, h.fits]
    · exact hF.of_answered hanswered
  have hcheck : ∀ t : Run σ R K X, F t.u = .ok t.fu →
      (Checker.check t.fu t.u t.previous).Ends r.checker
        (fun _ k => t.u.isFinite ∧ t.fu.isFinite ∧ k.Remembers (FiniteAt F))
        (fun _ k => k.Remembers (FiniteAt F)) := fun t ht =>
    Checker.check_remembers t.previous (fun hu hfu => ⟨hu, t.fu, ht, hfu⟩) h.remembers
  refine (hS r).mono (fun _ t ht => ?_) (fun _ t ht => ?_)
  · obtain ⟨b, ht⟩ := ht
    have hmoved : F t.u = .ok t.fu := hfits t ht.moved
    obtain ⟨hu, hfu, hk⟩ := (hcheck t hmoved).ok ht.checked
    exact ⟨⟨hmoved, hk⟩, hu, hfu⟩
  · have hmoved : F t.u = .ok t.fu := hfits t ht.moved
    refine ⟨hmoved, ?_⟩
    rcases ht.checker with hk | ⟨x, -, hk⟩
    · rw [hk]
      exact h.remembers
    · cases x with
      | ok b => exact ((hcheck t hmoved).ok hk).2.2
      | error e => exact (hcheck t hmoved).error hk

theorem Algorithm.isSound (a : Algorithm σ R K) (hF : c.problem.Computes F) :
    a.strategy.IsSound c F :=
  (a.proceeds c).isSound hF

/-! ## Runs -/

/-- The iterate and its residual are finite, or the checks would fall back to an iterate that is
numerically the present one. -/
def Run.IsSettled (r : Run σ R K X) : Prop :=
  r.IsFinite ∨ r.checker.fallback.same r.u

theorem Run.IsSettled.of_core {r t : Run σ R K X} (h : r.IsSettled) (ht : t.core = r.core) :
    t.IsSettled := by
  refine h.imp (fun h => h.of_core ht) (fun h => ?_)
  simp only [core, Prod.mk.injEq] at ht
  rcases ht with ⟨hu, -, hk⟩
  rw [hu, hk, h]

/-- Ending a run with a failure keeps the invariant and settles the run. -/
theorem Run.EndedWith.sound {f : Failure R K} {r t : Run σ R K X} (hF : c.problem.Computes F)
    (h : EndedWith c f r t) (hr : r.Sound F) : t.Sound F ∧ t.IsSettled := by
  have hback : FiniteAt F r.checker.fallback := hr.remembers.fallback
  cases h.fellBack with
  | finite _ hu hfu hcore => exact ⟨hr.of_core hcore, .of_core (.inl ⟨hu, hfu⟩) hcore⟩
  | same hsame hcore => exact ⟨hr.of_core hcore, .of_core (.inr hsame) hcore⟩
  | unanswered f w hresidual _ =>
    obtain ⟨g, hg, -⟩ := hback.residual
    rw [hF.eq_of_eval hresidual] at hg
    cases hg
  | moved fu w hresidual hcore =>
    obtain ⟨g, hg, hfinite⟩ := hback.residual
    have hfu : F r.checker.fallback = .ok fu := hF.eq_of_eval hresidual
    simp only [core, Prod.mk.injEq] at hcore
    rcases hcore with ⟨htu, htfu, hk⟩
    rw [hg] at hfu
    cases hfu
    refine ⟨hr.moved (by rw [htu, htfu, hg]) hk, .inl ⟨?_, ?_⟩⟩
    · rw [htu]
      exact hback.point
    · rw [htfu]
      exact hfinite

/-- One step of the loop, whether the strategy's step returned or failed. -/
theorem Strategy.IsSound.step {S : Strategy σ R K X} (hS : S.IsSound c F)
    (hF : c.problem.Computes F) {r t : Run σ R K X} (hr : r.Sound F)
    (h : (Run.step S c).eval r = (.ok (), t)) : t.Sound F ∧ t.IsSettled := by
  rcases Run.step_cases h with ⟨s, hs, rfl⟩ | ⟨f, s, s', hs, hend, rfl⟩
  · obtain ⟨hsound, hfinite⟩ := (hS r hr).ok hs
    exact ⟨hsound.of_core (by simp), .of_core (.inl hfinite) (by simp)⟩
  · obtain ⟨hsound, hsettled⟩ := hend.sound hF ((hS r hr).error hs)
    exact ⟨hsound.of_core (by simp), hsettled.of_core (by simp)⟩

/-- A run starts with the residual of the guess, and both are finite if they are at the guess. -/
theorem Run.start_fits {S : Strategy σ R K X} (hF : c.problem.Computes F)
    (hguess : FiniteAt F c.problem.guess.entries) {world : σ} {r : Run σ R K X}
    (h : Run.start S c world = .ok r) : F r.u = .ok r.fu ∧ r.IsFinite := by
  have hfits : F r.u = .ok r.fu := hF.of_answered (Run.start_answered h)
  refine ⟨hfits, ?_⟩
  rw [Run.start_u h] at hfits
  obtain ⟨g, hg, hfinite⟩ := hguess.residual
  obtain rfl : g = r.fu := Except.ok.inj (hg.symm.trans hfits)
  exact ⟨(Run.start_u h).symm ▸ hguess.point, hfinite⟩

/-- The whole run from a finite guess with a finite residual. -/
theorem Strategy.IsSound.reaches {S : Strategy σ R K X} (hS : S.IsSound c F)
    (hF : c.problem.Computes F) (hguess : FiniteAt F c.problem.guess.entries) {world : σ}
    {t : Run σ R K X} (h : Run.Reaches S c world t) : t.Sound F ∧ t.IsSettled := by
  rcases h with ⟨r, hstart, hleads⟩
  refine hleads.invariant ?_ (fun s h => ⟨h.1.of_core rfl, h.2.of_core rfl⟩)
    (fun s t hs _ hstep => hS.step hF hs.1 hstep)
  obtain ⟨hfits, hfinite⟩ := Run.start_fits hF hguess hstart
  have hremembers : r.checker.Remembers (FiniteAt F) := by
    rw [Run.start_checker hstart, Run.start_u hstart]
    exact ⟨hguess, hguess⟩
  exact ⟨⟨hfits, hremembers⟩, .inl hfinite⟩

/-- **The residual of a solve is that of its iterate.**  For every algorithm and every setup, from a
finite guess with a finite residual: at every boundary between steps the stored residual is that of
the stored iterate, and so it is in the solution, whose iterate and residual are finite unless `F`
is finite at a finite point that is numerically the iterate without being finite at the iterate. -/
theorem Algorithm.solve_consistent (a : Algorithm σ R K) (c : Setup σ R K) (world : σ)
    (hF : c.problem.Computes F) (hguess : FiniteAt F c.problem.guess.entries) :
    (∀ r : Run σ R K a.State, Run.Reaches a.strategy c world r → F r.u = .ok r.fu) ∧
      ∀ o, a.solve c world = .ok o →
        F o.solution.u.entries = .ok o.solution.residual.entries ∧
          (o.solution.u.entries.isFinite ∧ o.solution.residual.entries.isFinite ∨
            ∃ v, FiniteAt F v ∧ v.same o.solution.u.entries) := by
  refine ⟨fun r hr => ((a.isSound hF).reaches hF hguess hr).1.fits, fun o ho => ?_⟩
  obtain ⟨e, hreaches, hsolution⟩ := solve_ok ho
  obtain ⟨hsound, hsettled⟩ := (a.isSound hF).reaches hF hguess hreaches
  obtain ⟨hu, hfu, -⟩ := Run.solution_ok hsolution
  have hfits : F o.solution.u.entries = .ok o.solution.residual.entries := by
    rw [hu, hfu]
    exact hsound.fits
  refine ⟨hfits, hsettled.imp (fun hfinite => ⟨?_, ?_⟩)
    (fun hsame => ⟨e.checker.fallback, hsound.remembers.fallback, ?_⟩)⟩
  · rw [hu]
    exact hfinite.1
  · rw [hfu]
    exact hfinite.2
  · rw [hu]
    exact hsame

/-! ## Zeros of both signs

Zeros of different sign are numerically equal, so a run that has moved from one to the other does
not fall back, even if its residual is infinite there. -/

/-- A residual that is finite at the negative zero and infinite at the positive one. -/
def signResidual (x : Number) : Number :=
  .real (if 0.0 < 1.0 / x.re then 1.0 / 0.0 else -0.0)

def signProblem : Problem Unit Numeral Number where
  residual := .returning fun t w => (.ok ⟨t.shape, t.entries.map signResidual⟩, w)
  guess := ⟨[1], .ofList [.real (-0.0)]⟩
  jacobian := some fun _ w => (.ok (.number (.real 1.0)), w)

/-- A plain setup for a problem. -/
def plainSetup (p : Problem Unit Numeral Number) : Setup Unit Numeral Number where
  problem := p
  options :=
    { maxiters := 5, abstol := 1e-8, reltol := 1e-8, termination := .standard, norm := Vec.norm }
  backend := .standard

/-- The residual of the problem as a function. -/
def signFunction : Vec Number → Except (Thrown Numeral Number) (Vec Number) :=
  signProblem.residualOf fun t => .ok ⟨t.shape, t.entries.map signResidual⟩

theorem signProblem_computes : signProblem.Computes signFunction :=
  Problem.computes_returning rfl fun _ _ => rfl

theorem signProblem_finiteAt : FiniteAt signFunction signProblem.guess.entries :=
  ⟨by decide +kernel, signProblem.guess.entries.map signResidual, rfl, by decide +kernel⟩

theorem signProblem_consistent :
    signProblem.Computes signFunction ∧ FiniteAt signFunction signProblem.guess.entries ∧
      (∀ r : Run Unit Numeral Number _, Run.Reaches (Newton.standard .direct).strategy
        (plainSetup signProblem) () r → signFunction r.u = .ok r.fu) :=
  ⟨signProblem_computes, signProblem_finiteAt,
    (Algorithm.solve_consistent (.newton (.standard .direct)) (plainSetup signProblem) ()
      signProblem_computes signProblem_finiteAt).1⟩

/-- From the negative zero a Newton step leads to the positive one, and the solution has an infinite
residual. -/
theorem signProblem_residual_infinite :
    signProblem.Computes signFunction ∧ FiniteAt signFunction signProblem.guess.entries ∧
      ∃ o, (Algorithm.newton (.standard .direct)).solve (plainSetup signProblem) () = .ok o ∧
        o.solution.residual.entries.isFinite = false := by
  have h : ((Algorithm.newton (.standard .direct)).solve (plainSetup signProblem) ()).toOption.map
      (fun o => o.solution.residual.entries.isFinite) = some false := by decide +kernel
  refine ⟨signProblem_computes, signProblem_finiteAt, ?_⟩
  cases ho : (Algorithm.newton (.standard .direct)).solve (plainSetup signProblem) () with
  | error e => simp [ho, Except.toOption] at h
  | ok o => exact ⟨o, rfl, by simpa [ho, Except.toOption] using h⟩

end RootFinding
