import RootFinding.Proofs.Agreement
import RootFinding.Proofs.Elimination
import RootFinding.Proofs.Fits
import RootFinding.Proofs.Reuse

/-!
# The two forms of a Newton run

A Newton run may solve for its direction directly or by the normal equations. For as many equations
as unknowns, with a Jacobian that has an inverse, the two systems have the same solution, so two
runs that solve them exactly go the same way.

* `Run.Twin r t`: runs that differ in the matrix and the factors of the linear system, the warnings
  and the text only. What both runs do in the same way keeps them twins (`Run.Twin.onWork` and its
  neighbours).
* `LinearSystem.factorize_twin`, `LinearSystem.solve_twin`: so does a factorisation of different
  matrices of one kind, and a solve that gives the same solution.
* `Newton.SolvesExactly`: the step from a state solves exactly with a Jacobian that has an inverse.
* `Newton.step_twin`, `Newton.loop_twin`, `Newton.forms_agree`: then the two runs stay twins.
-/

open scoped Matrix

namespace RootFinding

open Action

variable {σ R K X α : Type}

/-! ## Workspaces -/

/-- Workspaces that differ in the matrix and the factors of the linear system and in the warnings
only. -/
def Workspace.Twin (w w' : Workspace σ R K) : Prop :=
  ∃ matrix factors warnings,
    w' = { w with system := { w.system with matrix, factors }, warnings }

namespace Workspace

theorem Twin.refl (w : Workspace σ R K) : w.Twin w := ⟨_, _, _, rfl⟩

/-- A change that neither reads nor writes what twins differ in. -/
theorem twin_modify {f : Workspace σ R K → Workspace σ R K}
    (hf : ∀ w matrix factors warnings,
      f { w with system := { w.system with matrix, factors }, warnings } =
        { f w with system := { (f w).system with matrix, factors }, warnings }) :
    Respects Twin (modify f : Work σ R K PUnit) := by
  intro w w' h
  obtain ⟨matrix, factors, warnings, rfl⟩ := h
  exact alike_modify ⟨matrix, factors, warnings, hf w matrix factors warnings⟩

theorem twin_call {α β : Type} (f : Callable σ R K α β) (x : α) :
    Respects Twin (Workspace.call f x : Work σ R K β) := by
  intro w w' h
  obtain ⟨matrix, factors, warnings, rfl⟩ := h
  exact ⟨rfl, matrix, factors, warnings, rfl⟩

/-- All constructs of an action on the workspace keep twins. -/
theorem twin_hereditary :
    Work.Hereditary fun α (a : Work σ R K α) => Respects Workspace.Twin a where
  pure := respects_pure
  bind := Respects.bind
  throw := respects_throw
  attempt h := fun w w' hw => (h w w' hw).attempt
  mapError _ h := fun w w' hw => (h w w' hw).mapError
  warn text := by
    intro w w' h
    obtain ⟨matrix, factors, warnings, rfl⟩ := h
    exact ⟨rfl, matrix, factors, _, rfl⟩

end Workspace

open Workspace

variable [Scalar R] [Entry R K]

theorem Problem.evaluate_twin (p : Problem σ R K) (u : Vec K) :
    Respects Twin (p.evaluate u) := by
  refine (respects_ofFault _).bind fun x => ?_
  refine (twin_modify fun _ _ _ _ => rfl).bind fun _ => ?_
  dsimp only
  split <;> exact (twin_hereditary.mapError _ (twin_call _ _)).bind fun t =>
    (twin_modify fun _ _ _ _ => rfl).bind fun _ => respects_pure _

theorem Problem.jacobianAt_twin (p : Problem σ R K) (s : JacobianSettings R) (u : Vec K)
    (fu : Option (Vec K)) : Respects Twin (p.jacobianAt s u fu) := by
  have hraw : Respects Twin (p.rawJacobian s u fu) :=
    rawJacobian_of twin_hereditary.toStraight p.evaluate_twin (fun jac _ => twin_call jac) s u fu
  refine (twin_hereditary.mapError _ hraw).bind fun J => ?_
  split
  · exact respects_throw _
  · exact (twin_modify fun _ _ _ _ => rfl).bind fun _ => respects_pure _

theorem LineSearch.search_twin (p : Problem σ R K) (s : LineSearch σ R K) (x : SearchPoint K) :
    Respects Twin (s.search p.evaluate x) :=
  search_of twin_hereditary p.evaluate_twin s (fun _ _ => twin_call _) x

namespace LinearSystem

omit [Entry R K] in
/-- Twins that factorise matrices of one kind stay twins. -/
theorem factorize_twin {B : Backend σ R K} {A A' : Matrix R K} {w w' v v' : Workspace σ R K}
    (h : w.Twin w') (hkind : SolveMethod.forMatrix A = SolveMethod.forMatrix A')
    (hcols : A.cols = A'.cols) (hw : (factorize B A).eval w = (.ok (), v))
    (hw' : (factorize B A').eval w' = (.ok (), v')) : v.Twin v' := by
  obtain ⟨matrix, factors, warnings, rfl⟩ := h
  obtain ⟨f, -, rfl⟩ := (factorize_spec B A w).ok hw
  obtain ⟨f', -, rfl⟩ := (factorize_spec B A' _).ok hw'
  refine ⟨some A', f', warnings, ?_⟩
  simp only [hkind, factorized, hcols]
  cases w.system.method.getD (SolveMethod.forMatrix A') <;> rfl

/-- A solve with a matrix that is not free changes the linear system by its solution only. -/
theorem solve_ok {B : Backend σ R K} (hB : B.Frames) (F : Vec K → Work σ R K (Vec K))
    {A : Matrix R K} (hA : ¬A.IsFree) (b : Vec K) {w : Workspace σ R K}
    (hmatrix : w.system.matrix = some A) :
    (solve B F b).Ends w
      (fun x t => ∃ warnings, t = { w with
        system := { w.system with last := some x, solves := w.system.solves + 1 }, warnings })
      (fun _ _ => True) := by
  -- all of the workspace but the warnings
  let π : Workspace σ R K → Array String → Workspace σ R K :=
    fun w warnings => { w with warnings }
  have hproducts : ∀ v, Keeps π (A.apply F v) := by
    intro v
    cases A with
    | dense A | sparse A => exact Keeps.guard (keeps_throw _) (keeps_pure _)
    | free A => exact (hA trivial).elim
  unfold solve
  simp only [ends_bind, ends_get]
  split
  next hnone => trivial
  next A' hsome =>
    obtain rfl : A = A' := Option.some.inj (hmatrix.symm.trans hsome)
    simp only [change, ends_bind, ends_modify]
    refine ((solveBy_keeps (fun _ _ => rfl) hB hproducts _ b _).ends _).mono (fun x t ht => ?_)
      (fun _ _ _ => trivial)
    have ht : t = { w with
        system := { w.system with solves := w.system.solves + 1 }, warnings := t.warnings } :=
      congrFun ht t.warnings
    refine (answer_spec x t).mono (fun y v hv => ?_) fun _ _ _ => trivial
    obtain ⟨rfl, -, rfl⟩ := hv
    rw [ht]
    exact ⟨t.warnings, rfl⟩

/-- Twins that solve for the same vector stay twins. -/
theorem solve_twin {B : Backend σ R K} (hB : B.Frames) (F : Vec K → Work σ R K (Vec K))
    {A A' : Matrix R K} (hA : ¬A.IsFree) (hA' : ¬A'.IsFree) {b b' x : Vec K}
    {w w' v v' : Workspace σ R K} (h : w.Twin w') (hmatrix : w.system.matrix = some A)
    (hmatrix' : w'.system.matrix = some A') (hw : (solve B F b).eval w = (.ok x, v))
    (hw' : (solve B F b').eval w' = (.ok x, v')) : v.Twin v' := by
  obtain ⟨_, rfl⟩ := (solve_ok hB F hA b hmatrix).ok hw
  obtain ⟨warnings, rfl⟩ := (solve_ok hB F hA' b' hmatrix').ok hw'
  obtain ⟨matrix, factors, _, rfl⟩ := h
  exact ⟨matrix, factors, warnings, rfl⟩

end LinearSystem

/-! ## Runs -/

/-- Runs that differ in what twin workspaces differ in, and in the text. -/
def Run.Twin (r t : Run σ R K X) : Prop :=
  ∃ work printed, r.work.Twin work ∧ t = { r with work, printed }

namespace Run

section Constructs

omit [Scalar R] [Entry R K]

theorem Twin.refl (r : Run σ R K X) : r.Twin r := ⟨_, _, .refl _, rfl⟩

theorem Twin.work {r t : Run σ R K X} (h : r.Twin t) : r.work.Twin t.work := by
  obtain ⟨work, printed, hwork, rfl⟩ := h
  exact hwork

theorem onWork_eval {a : Work σ R K α} {r t : Run σ R K X} {x : Except (Thrown R K) α}
    (h : (onWork a).eval r = (x, t)) : ∃ w, a.eval r.work = (x, w) ∧ t = { r with work := w } := by
  simp only [onWork, eval_within, Prod.mk.injEq] at h
  exact ⟨_, Prod.ext h.1 rfl, h.2.symm⟩

theorem twin_onWork {a : Work σ R K α} (h : Respects Workspace.Twin a) :
    Respects Twin (onWork a : Stepping σ R K X α) := by
  intro r t hr
  obtain ⟨work, printed, hwork, rfl⟩ := hr
  exact (h _ _ hwork).within fun w w' hw => ⟨w', printed, hw, rfl⟩

/-- Two actions that end alike on the workspaces of twins. -/
theorem alike_onWork {a b : Work σ R K α} {r t : Run σ R K X} {x : Except (Thrown R K) α}
    {w w' : Workspace σ R K} (hr : r.Twin t) (ha : a.eval r.work = (x, w))
    (hb : b.eval t.work = (x, w')) (h : w.Twin w') :
    Alike Twin (onWork a : Stepping σ R K X α) (onWork b) r t := by
  obtain ⟨work, printed, -, rfl⟩ := hr
  have halike : Alike Workspace.Twin a b r.work work := alike_of_eval ha hb h
  exact halike.within fun v v' hv => ⟨v', printed, hv, rfl⟩

/-- A change of a run that neither reads nor writes the workspace and the text. -/
theorem twin_modify {f : Run σ R K X → Run σ R K X}
    (hf : ∀ work printed r, f { r with work, printed } = { f r with work, printed }) :
    Respects Twin (modify f : Stepping σ R K X PUnit) := by
  intro r t hr
  obtain ⟨work, printed, hwork, rfl⟩ := hr
  have hkept : (f r).work = r.work := (congrArg Run.work (hf r.work r.printed r)).trans rfl
  exact alike_modify ⟨work, printed, by rwa [hkept], hf work printed r⟩

theorem twin_update (f : X → X) : Respects Twin (update f : Stepping σ R K X Unit) :=
  twin_modify fun _ _ _ => rfl

theorem twin_moveTo (u fu : Vec K) : Respects Twin (moveTo u fu : Stepping σ R K X Unit) :=
  twin_modify fun _ _ _ => rfl

/-- An action that reads the run, but not the workspace and the text. -/
theorem twin_get_bind {f : Run σ R K X → Stepping σ R K X α}
    (hf : ∀ work printed r, f { r with work, printed } = f r)
    (h : ∀ r, Respects Twin (f r)) : Respects Twin (get >>= f) := by
  intro r t hr
  obtain ⟨work, printed, hwork, rfl⟩ := hr
  rw [alike_get_bind, hf work printed r]
  exact h r _ _ ⟨work, printed, hwork, rfl⟩

end Constructs

omit [Entry R K] in
/-- Twins may print different lines. -/
theorem alike_print {r t : Run σ R K X} (hr : r.Twin t) (style text text' : String) :
    Alike Twin (print style text : Stepping σ R K X Unit) (print style text') r t := by
  obtain ⟨work, printed, hwork, rfl⟩ := hr
  exact ⟨rfl, work, _, hwork, rfl⟩

omit [Entry R K] in
theorem twin_print (style text : String) :
    Respects Twin (print style text : Stepping σ R K X Unit) :=
  fun _ _ hr => alike_print hr style text text

theorem twin_evaluate (c : Setup σ R K) (u : Vec K) :
    Respects Twin (evaluate c u : Stepping σ R K X (Vec K)) :=
  twin_onWork (c.problem.evaluate_twin u)

theorem twin_check : Respects Twin (check : Stepping σ R K X Bool) := by
  refine twin_get_bind (fun _ _ _ => rfl) fun r => Respects.bind ?_ fun converged => ?_
  · intro r' t hr
    obtain ⟨work, printed, hwork, rfl⟩ := hr
    exact ⟨rfl, work, printed, hwork, rfl⟩
  · exact Respects.guard (twin_modify fun _ _ _ => rfl) (respects_pure _)

theorem twin_fallBack (c : Setup σ R K) :
    Respects Twin (fallBack c : Stepping σ R K X Unit) := by
  refine twin_get_bind (fun _ _ _ => rfl) fun r => ?_
  dsimp only
  split
  · exact respects_pure _
  · have hattempt : Respects Twin (attempt (evaluate c r.checker.fallback) :
        Stepping σ R K X (Except (Thrown R K) (Vec K))) :=
      fun r t hr => (twin_evaluate c _ r t hr).attempt
    refine hattempt.bind fun x => ?_
    rcases x with (f | e) | fu
    · exact respects_pure _
    · exact respects_throw _
    · exact twin_moveTo _ _

theorem twin_endWith (c : Setup σ R K) (f : Failure R K) :
    Respects Twin (endWith c f : Stepping σ R K X Unit) := by
  refine (twin_modify fun _ _ _ => rfl).bind fun _ => (twin_print _ _).bind fun _ => ?_
  refine twin_get_bind (fun _ _ _ => rfl) fun r => ?_
  split
  · exact twin_fallBack c
  · exact respects_pure _

theorem twin_record (c : Setup σ R K) (before : Vec K) :
    Respects Twin (record c before : Stepping σ R K X Unit) := by
  refine (twin_modify fun _ _ _ => rfl).bind fun _ => ?_
  refine twin_get_bind (fun _ _ _ => rfl) fun r => ?_
  exact Respects.guard (twin_modify fun _ _ _ => rfl) (twin_print _ _)

/-- Steps of the loop end alike if those of the strategies do. -/
theorem step_alike {S S' : Strategy σ R K X} {c : Setup σ R K} {r t : Run σ R K X}
    (hr : r.Twin t) (h : Alike Twin (S.step c) (S'.step c) r t) :
    Alike Twin (step S c) (step S' c) r t := by
  have hu : t.u = r.u := by
    obtain ⟨work, printed, -, rfl⟩ := hr
    rfl
  simp only [step, alike_get_bind, hu]
  refine (Alike.attempt h).bind (fun x s s' hs => ?_) (fun _ _ h => h)
  rcases x with (f | e) | _
  · exact ((twin_endWith c f).bind fun _ => twin_record c r.u) s s' hs
  · exact alike_throw hs _
  · exact twin_record c r.u s s' hs

omit [Scalar R] [Entry R K] in
theorem Twin.isActive {r t : Run σ R K X} (h : r.Twin t) : t.isActive = r.isActive := by
  obtain ⟨work, printed, -, rfl⟩ := h
  rfl

omit [Scalar R] [Entry R K] in
theorem Twin.solution {r t : Run σ R K X} (h : r.Twin t) (p : Problem σ R K) :
    t.solution p = r.solution p := by
  obtain ⟨work, printed, ⟨matrix, factors, warnings, rfl⟩, rfl⟩ := h
  rfl

/-- Runs whose loops end alike are finished with the same solution. -/
theorem finish_alike {S S' : Strategy σ R K X} {c : Setup σ R K} {r t : Run σ R K X}
    (hr : r.Twin t) (h : ∀ fuel, Alike Twin (loop S c fuel) (loop S' c fuel)
      (r.headed S) (t.headed S')) :
    Alike Twin (finish S c) (finish S' c) r t := by
  have hfuel : (t.maxiters - t.steps).toNat = (r.maxiters - r.steps).toNat := by
    obtain ⟨work, printed, -, rfl⟩ := hr
    rfl
  have hclose : Respects Twin (do
      modify fun r => { r with code := r.finalCode }
      let r ← get
      print "solver" (resultText c r)
      Action.ofFault (r.solution c.problem) : Stepping σ R K X (Solution R K)) := by
    refine (twin_modify fun _ _ _ => rfl).bind fun _ => fun r t hr => ?_
    rw [alike_get_bind, hr.solution]
    exact (alike_print hr _ _ _).bind (fun _ s s' h => respects_ofFault _ s s' h) (fun _ _ h => h)
  simp only [finish, alike_get_bind, hfuel]
  refine (alike_print hr _ _ _).bind_eval (fun _ s s' hs hs' _ => ?_) (fun _ _ h => h)
  obtain rfl : r.headed S = s := (Prod.mk.inj hs).2
  obtain rfl : t.headed S' = s' := (Prod.mk.inj hs').2
  exact (h _).bind (fun _ s s' h => hclose s s' h) (fun _ _ h => h)

end Run

/-- A run with one step to go is active before that step only. -/
theorem Run.Reaches.once {S : Strategy σ R K X} {c : Setup σ R K} {world : σ} {r : Run σ R K X}
    (hS : S.Proceeds c) (hlimit : c.options.maxiters = 1) (h : Run.Reaches S c world r)
    (active : r.isActive) :
    ∃ r₀ printed, Run.start S c world = .ok r₀ ∧ r = { r₀ with printed } := by
  obtain ⟨r₀, hstart, hleads⟩ := h
  have hmaxiters : r₀.maxiters = 1 := by
    rw [Run.start_eq hstart]
    exact hlimit
  have hbefore : r.maxiters = 1 ∧ (1 ≤ r.steps ∨ ∃ printed, r = { r₀ with printed }) := by
    refine hleads.invariant (I := fun t => t.maxiters = 1 ∧ (1 ≤ t.steps ∨
      ∃ printed, t = { r₀ with printed })) ⟨hmaxiters, .inr ⟨_, rfl⟩⟩ (fun s hs => ?_)
      (fun s t hs _ hstep => ?_)
    · obtain ⟨hlimit, hs | ⟨printed, rfl⟩⟩ := hs
      · exact ⟨hlimit, .inl hs⟩
      · exact ⟨hlimit, .inr ⟨_, rfl⟩⟩
    · obtain ⟨hsteps, hlimit⟩ := (hS.stepsTo hstep).count
      exact ⟨hlimit.trans hs.1, .inl (by omega)⟩
  obtain ⟨hlimit, hlate | ⟨printed, rfl⟩⟩ := hbefore
  · simp only [Run.isActive, hlimit, Bool.and_eq_true, decide_eq_true_eq] at active
    omega
  · exact ⟨r₀, printed, hstart, rfl⟩

/-- Strategies that start alike and whose runs are finished alike end in the same way. -/
theorem Algorithm.outcome_alike {S S' : Strategy σ R K X} {c : Setup σ R K} {world : σ}
    (hstart : Run.start S' c world = Run.start S c world)
    (h : ∀ r, Run.start S c world = .ok r →
      Alike Run.Twin (Run.finish S c) (Run.finish S' c) r r) :
    (outcome S' c world).map (fun o => (o.solution, o.world)) =
      (outcome S c world).map (fun o => (o.solution, o.world)) := by
  unfold outcome Strategy.solve
  rw [hstart]
  rcases hr : Run.start S c world with e | r
  · rfl
  rcases hfinish : (Run.finish S c).eval r with ⟨_ | s, t⟩
  · obtain ⟨t', ht', -⟩ := (h r hr).eval hfinish
    simp only [bind, Except.bind, hfinish, ht']
  · obtain ⟨t', ht', work, printed, ⟨matrix, factors, warnings, rfl⟩, rfl⟩ :=
      (h r hr).eval hfinish
    simp only [bind, Except.bind, hfinish, ht']
    rfl

/-! ## Newton runs -/

section Gram

variable {𝕜 : Type} [RCLike 𝕜] [Entry Exact K] [ExactEntry 𝕜 K] {A : Matrix Exact K}

theorem Matrix.Reads.not_isFree {m n : Nat} {M : FieldMatrix 𝕜 m n} (hA : A.Reads M) :
    ¬A.IsFree := by
  cases A with
  | dense A | sparse A => exact id
  | free A => exact hA.elim

/-- A square matrix and its gram matrix are of one kind. -/
theorem Matrix.Reads.gram_kind {n : Nat} {M : FieldMatrix 𝕜 n n} (hA : A.Reads M) :
    SolveMethod.forMatrix A = SolveMethod.forMatrix A.gram ∧ A.cols = A.gram.cols := by
  have hsquare : A.isSquare = true := by simp [Matrix.isSquare, hA.height, hA.cols]
  have hgram : A.gram.isSquare = true := by simp [Matrix.isSquare, hA.gram.height, hA.gram.cols]
  refine ⟨?_, hA.cols.trans hA.gram.cols.symm⟩
  unfold SolveMethod.forMatrix
  rw [if_pos hsquare, if_pos hgram]
  cases A with
  | dense A | sparse A => rfl
  | free A => exact hA.elim

end Gram

/-- The residual at the initial guess has as many entries as the guess. -/
def Setup.IsSquare (c : Setup σ R K) (world : σ) : Prop :=
  ∀ fu w, (c.problem.evaluate c.problem.guess.entries).eval (Run.emptyWorkspace world) =
    (.ok fu, w) → fu.size = c.problem.guess.entries.size

namespace Newton

/-- The strategy that solves for its directions in the given form. -/
def withForm (a : Newton σ R K) (form : NewtonForm) : Newton σ R K := { a with form }

/-- The Jacobian with which a step from `r` solves: the stored one, or the one that the step
makes. -/
inductive Visits (c : Setup σ R K) (r : Run σ R K (State σ R K)) (J : Matrix R K) : Prop
  | kept (needed : NeedsJacobian c r = false) (stored : r.work.jacobian = some J)
  | built (w : Workspace σ R K) (needed : NeedsJacobian c r = true)
    (made : (c.problem.jacobianAt r.ext.jacobians r.u (some r.fu)).eval r.work = (.ok J, w))

variable {a : Newton σ R K} {c : Setup σ R K} {r s : Run σ R K (State σ R K)}

/-- The Jacobian of a step that has got it is one that it visits. -/
theorem Renewed.visits (h : Renewed a c r s) {J : Matrix R K}
    (hJ : s.work.jacobian = some J) : Visits c r J := by
  cases h with
  | kept needed => exact .kept needed hJ
  | built J' w w' needed made factorized =>
    obtain ⟨hstored, -, -⟩ := Renewed.built_model made factorized
    obtain rfl : J' = J := Option.some.inj (hstored.symm.trans hJ)
    exact .built w needed made

theorem advance_twin (c : Setup σ R K) (du : Vec K) (alpha : R) :
    Respects Run.Twin (advance c du alpha : Stepping σ R K (State σ R K) Unit) := by
  refine Run.twin_get_bind (fun _ _ _ => rfl) fun r => ?_
  refine (Run.twin_modify fun _ _ _ => rfl).bind fun _ => ?_
  refine (Run.twin_evaluate c _).bind fun fu => (Run.twin_moveTo _ _).bind fun _ => ?_
  refine Run.twin_get_bind (fun _ _ _ => rfl) fun r => ?_
  exact (respects_ofFault _).bind fun _ => Run.twin_update _

/-- What a step does once it has its direction. -/
theorem pursue_twin (c : Setup σ R K) (du : Vec K) :
    Respects Run.Twin (do
      let r ← get
      let alpha ← Run.onWork (r.ext.search.search c.problem.evaluate ⟨r.u, r.fu, du⟩)
      advance c du alpha
      let _ ← Run.check : Stepping σ R K (State σ R K) Unit) := by
  refine Run.twin_get_bind (fun _ _ _ => rfl) fun r => ?_
  refine (Run.twin_onWork (LineSearch.search_twin c.problem _ _)).bind fun alpha => ?_
  exact (advance_twin c du alpha).bind fun _ => Run.twin_check.bind fun _ => respects_pure _

theorem start_withForm (a : Newton σ R K) {u fu : Vec K} (hsize : fu.size = u.size) :
    (a.withForm .normal).start c u fu = (a.withForm .direct).start c u fu := by
  have hsquare : ∀ name, requireSquare name u fu = .ok () := fun _ => if_pos hsize
  simp only [start, withForm, if_true, reduceCtorEq, if_false, hsquare]
  rfl

/-- For as many equations as unknowns both forms start alike. -/
theorem start_forms (a : Newton σ R K) {world : σ} (hsquare : c.IsSquare world) :
    Run.start (a.withForm .normal).strategy c world =
      Run.start (a.withForm .direct).strategy c world := by
  unfold Run.start
  dsimp only
  rcases h : (c.problem.evaluate c.problem.guess.entries).eval (Run.emptyWorkspace world) with
    ⟨_ | fu, work⟩
  · rfl
  · simp only [strategy, start_withForm a (hsquare fu work h)]

/-! ## Exact solutions -/

section Exact

variable (𝕜 : Type) {K : Type} [RCLike 𝕜] [Entry Exact K] [ExactEntry 𝕜 K]
  {a : Newton σ Exact K} {c : Setup σ Exact K} {r s s' t : Run σ Exact K (State σ Exact K)}

/-- The step from `r` solves exactly with a Jacobian that has an inverse: its linear system takes
the matrix, and answers the solution for the right-hand side. -/
structure SolvesExactly (a : Newton σ Exact K) (c : Setup σ Exact K)
    (r : Run σ Exact K (State σ Exact K)) : Prop where
  nonsingular (J : Matrix Exact K) : Visits c r J →
    ∃ M : FieldMatrix 𝕜 c.problem.size c.problem.size, J.Reads M ∧ M.det ≠ 0
  factorizes (J : Matrix Exact K) (w : Workspace σ Exact K) : NeedsJacobian c r = true →
    (c.problem.jacobianAt r.ext.jacobians r.u (some r.fu)).eval r.work = (.ok J, w) →
      ∃ w', (LinearSystem.factorize c.backend (a.systemMatrix J)).eval w = (.ok (), w')
  solves (s : Run σ Exact K (State σ Exact K)) (J : Matrix Exact K) :
    (a.renew c).eval r = (.ok (), s) → s.work.jacobian = some J →
      ∃ b x w, a.rightSide (some J) r.fu = .ok b ∧
        (LinearSystem.solve c.backend c.problem.evaluate b).eval s.work = (.ok x, w) ∧
        ∃ (N : FieldMatrix 𝕜 c.problem.size c.problem.size) (g y : Fin c.problem.size → 𝕜),
          (a.systemMatrix J).Reads N ∧ b.Reads g ∧ x.Reads y ∧ N *ᵥ y = g

variable {𝕜}

/-- Both forms get their Jacobian alike. -/
theorem renew_twin (hr : r.Twin t) (hdirect : SolvesExactly 𝕜 (a.withForm .direct) c r)
    (hnormal : SolvesExactly 𝕜 (a.withForm .normal) c t) :
    Alike Run.Twin ((a.withForm .direct).renew c) ((a.withForm .normal).renew c) r t := by
  obtain ⟨work, printed, hwork, rfl⟩ := id hr
  have hneeds : NeedsJacobian c { r with work, printed } = NeedsJacobian c r := by
    obtain ⟨matrix, factors, warnings, rfl⟩ := hwork
    rfl
  simp only [renew, alike_get_bind]
  change Alike Run.Twin (if NeedsJacobian c r = true then _ else _)
    (if NeedsJacobian c { r with work, printed } = true then _ else _) r _
  rw [hneeds]
  split
  next hneeded =>
    refine (Run.twin_onWork (c.problem.jacobianAt_twin _ _ _) _ _ hr).bind_eval
      (fun J s s' hs hs' hss => ?_) (fun _ _ h => h)
    obtain ⟨w, hmade, rfl⟩ := Run.onWork_eval hs
    obtain ⟨w', hmade', rfl⟩ := Run.onWork_eval hs'
    obtain ⟨M, hM, -⟩ := hdirect.nonsingular J (.built w hneeded hmade)
    obtain ⟨v, hv⟩ := hdirect.factorizes J w hneeded hmade
    obtain ⟨v', hv'⟩ := hnormal.factorizes J w' (hneeds.trans hneeded) hmade'
    have hfactorized : v.Twin v' :=
      LinearSystem.factorize_twin hss.work hM.gram_kind.1 hM.gram_kind.2 hv hv'
    refine (Run.alike_onWork hss hv hv' hfactorized).bind (fun _ s s' h => ?_) (fun _ _ h => h)
    exact ((Run.twin_update _).bind fun _ => Run.twin_update _) s s' h
  next => exact Run.twin_update _ _ _ hr

/-- Both forms have the same direction. -/
theorem direction_twin (hB : c.backend.Frames)
    (hs : ((a.withForm .direct).renew c).eval r = (.ok (), s))
    (hs' : ((a.withForm .normal).renew c).eval t = (.ok (), s')) (hr : r.Twin t)
    (hss : s.Twin s') (hdirect : SolvesExactly 𝕜 (a.withForm .direct) c r)
    (hnormal : SolvesExactly 𝕜 (a.withForm .normal) c t)
    {J : Matrix Exact K} (hJ : s.work.jacobian = some J)
    (hmatrix : s.work.system.matrix = some J) (hmatrix' : s'.work.system.matrix = some J.gram) :
    Alike Run.Twin ((a.withForm .direct).direction c) ((a.withForm .normal).direction c) s s' := by
  have hfu : t.fu = r.fu := by
    obtain ⟨work, printed, -, rfl⟩ := hr
    rfl
  have hJ' : s'.work.jacobian = some J := by
    obtain ⟨matrix, factors, warnings, heq⟩ := hss.work
    rw [heq]
    exact hJ
  have hvisited : Visits c r J := ((renew_renewed r).ok hs).visits hJ
  obtain ⟨M, hM, hdet⟩ := hdirect.nonsingular J hvisited
  obtain ⟨b, x, w, hb, hw, N, g, y, hN, hg, hx, hsolved⟩ := hdirect.solves s J hs hJ
  obtain ⟨b', x', w', hb', hw', N', g', y', hN', hg', hx', hsolved'⟩ := hnormal.solves s' J hs' hJ'
  have hsfu : s.fu = r.fu := congrArg (·.fu) (Run.eq_of_rest ((renew_renewed r).ok hs).rest)
  have hsfu' : s'.fu = t.fu := congrArg (·.fu) (Run.eq_of_rest ((renew_renewed t).ok hs').rest)
  -- the second system is the first one with the transposed matrix on both sides
  have hfirst : M *ᵥ y = g := by rw [hM.inj hN, hsolved]
  have hsecond : (Mᵀ * M) *ᵥ y' = Mᵀ *ᵥ g := by
    obtain rfl : r.fu = b := Except.ok.inj hb
    obtain ⟨q, hq, hqreads⟩ := hM.applyTranspose hg.size
    obtain rfl : q = b' := Except.ok.inj (hq.symm.trans (hfu ▸ hb'))
    rw [hM.gram.inj hN', hsolved']
    exact hg'.inj (hqreads g hg)
  have hsame : x' = x := by
    obtain rfl : y' = y := FieldMatrix.eq_of_gram (isUnit_iff_ne_zero.2 hdet) hfirst hsecond
    exact hx'.trans hx.symm
  rw [hsame] at hw'
  have hsolve : w.Twin w' := LinearSystem.solve_twin hB c.problem.evaluate hM.not_isFree
    hM.gram.not_isFree hss.work hmatrix hmatrix' hw hw'
  simp only [direction, alike_get_bind, hJ, hJ', hsfu, hsfu', hb, hb']
  exact Run.alike_onWork hss hw hw' hsolve

/-- A step of a run that has got somewhere by the direct form ends like one of its twin by the
normal equations. -/
theorem step_twin {world : σ} (hB : c.backend.Frames)
    (hreached : Run.Reaches (a.withForm .direct).strategy c world r)
    (hreached' : Run.Reaches (a.withForm .normal).strategy c world t) (hr : r.Twin t)
    (active : r.isActive) (hdirect : SolvesExactly 𝕜 (a.withForm .direct) c r)
    (hnormal : SolvesExactly 𝕜 (a.withForm .normal) c t) :
    Alike Run.Twin ((a.withForm .direct).step c) ((a.withForm .normal).step c) r t := by
  obtain ⟨r₀, hstart, before⟩ := hreached
  obtain ⟨t₀, hstart', before'⟩ := hreached'
  refine (renew_twin hr hdirect hnormal).bind_eval (fun _ s s' hs hs' hss => ?_) (fun _ _ h => h)
  obtain ⟨J, hJ, m, hready⟩ := ready_of_renew 𝕜 hB hstart before active hs
  obtain ⟨J', hJ', m', hready'⟩ :=
    ready_of_renew 𝕜 hB hstart' before' (hr.isActive.trans active) hs'
  obtain rfl : J = J' := by
    obtain ⟨matrix, factors, warnings, heq⟩ := hss.work
    rw [heq] at hJ'
    exact Option.some.inj (hJ.symm.trans hJ')
  have hdirection := direction_twin hB hs hs' hr hss hdirect hnormal hJ hready.matrix hready'.matrix
  exact hdirection.bind (fun du s s' h => pursue_twin c du s s' h) (fun _ _ h => h)

/-- The two runs stay twins. -/
theorem loop_twin {world : σ} (hB : c.backend.Frames)
    (hdirect : ∀ r, Run.Reaches (a.withForm .direct).strategy c world r → r.isActive →
      SolvesExactly 𝕜 (a.withForm .direct) c r)
    (hnormal : ∀ r, Run.Reaches (a.withForm .normal).strategy c world r → r.isActive →
      SolvesExactly 𝕜 (a.withForm .normal) c r)
    (fuel : Nat) (hr : r.Twin t) (hreached : Run.Reaches (a.withForm .direct).strategy c world r)
    (hreached' : Run.Reaches (a.withForm .normal).strategy c world t) :
    Alike Run.Twin (Run.loop (a.withForm .direct).strategy c fuel)
      (Run.loop (a.withForm .normal).strategy c fuel) r t := by
  induction fuel generalizing r t with
  | zero => exact alike_pure hr _
  | succ fuel ih =>
    simp only [Run.loop, alike_get_bind, hr.isActive]
    split
    next active =>
      have active' : t.isActive = true := hr.isActive.trans active
      have hstep : Alike Run.Twin (Run.step (a.withForm .direct).strategy c)
          (Run.step (a.withForm .normal).strategy c) r t :=
        Run.step_alike hr (step_twin hB hreached hreached' hr active (hdirect r hreached active)
          (hnormal t hreached' active'))
      refine hstep.bind_eval (fun _ s s' hs hs' hss => ?_) (fun _ _ h => h)
      obtain ⟨r₀, hstart, before⟩ := hreached
      obtain ⟨t₀, hstart', before'⟩ := hreached'
      exact ih hss ⟨r₀, hstart, before.step active hs⟩ ⟨t₀, hstart', before'.step active' hs'⟩
    next => exact alike_pure hr _

/-- **The two forms of a Newton run.**  For as many equations as unknowns, let every step of either
run solve exactly with a Jacobian that has an inverse. Then the run that solves for its directions
directly and the one that solves the normal equations start in the same state, and stay twins after
any number of steps: they differ in the matrix of the linear system and its factors, in the warnings
and in the text. So both solves end alike, with the same solution or the same error, and leave the
same world. -/
theorem forms_agree (a : Newton σ Exact K) (c : Setup σ Exact K) (world : σ)
    (hB : c.backend.Frames) (hsquare : c.IsSquare world)
    (hdirect : ∀ r, Run.Reaches (a.withForm .direct).strategy c world r → r.isActive →
      SolvesExactly 𝕜 (a.withForm .direct) c r)
    (hnormal : ∀ r, Run.Reaches (a.withForm .normal).strategy c world r → r.isActive →
      SolvesExactly 𝕜 (a.withForm .normal) c r) :
    Run.start (a.withForm .normal).strategy c world =
        Run.start (a.withForm .direct).strategy c world ∧
      (∀ r, Run.start (a.withForm .direct).strategy c world = .ok r → ∀ fuel,
        Alike Run.Twin (Run.loop (a.withForm .direct).strategy c fuel)
          (Run.loop (a.withForm .normal).strategy c fuel) r r) ∧
      ((Algorithm.newton (a.withForm .normal)).solve c world).map (fun o => (o.solution, o.world)) =
        ((Algorithm.newton (a.withForm .direct)).solve c world).map
          (fun o => (o.solution, o.world)) := by
  have hstart := start_forms a hsquare
  refine ⟨hstart, fun r hr fuel => ?_, ?_⟩
  · exact loop_twin hB hdirect hnormal fuel (.refl r) ⟨r, hr, .refl⟩ ⟨r, hstart.trans hr, .refl⟩
  · refine Algorithm.outcome_alike hstart fun r hr => Run.finish_alike (.refl r) fun fuel => ?_
    have hheaded : (r.headed (a.withForm .direct).strategy).Twin
        (r.headed (a.withForm .normal).strategy) := Run.alike_print (.refl r) _ _ _ |>.2
    exact loop_twin hB hdirect hnormal fuel hheaded ⟨r, hr, .headline .refl⟩
      ⟨r, hstart.trans hr, .headline .refl⟩

end Exact

/-! ## One step -/

/-- The residual of the identity, with one step to go. -/
noncomputable def onceSetup : Setup Unit Exact Exact :=
  { halvingSetup with options := { halvingSetup.options with maxiters := 1 } }

/-- The strategy without reuse. -/
noncomputable def eager : Newton Unit Exact Exact := standard .direct

/-- The Jacobian of the residual of the identity. -/
noncomputable def steep : Matrix Exact Exact := .dense (.ofRow [Exact.real (2 : ℕ)])

theorem steep_made (s : JacobianSettings Exact) (w : Workspace Unit Exact Exact) :
    (halvingProblem.jacobianAt s halvingProblem.guess.entries
      (some halvingProblem.guess.entries)).eval w =
        (.ok steep, { w with jacobian := some steep, jacobians := w.jacobians + 1 }) :=
  rfl

theorem steep_reads : steep.Reads (!![2] : FieldMatrix ℝ 1 1) := ⟨rfl, rfl⟩

variable {form : NewtonForm} {r : Run Unit Exact Exact (State Unit Exact Exact)}

/-- Where the step starts. -/
theorem once_starts
    (h : Run.start (eager.withForm form).strategy onceSetup () = .ok r) :
    r.u = halvingProblem.guess.entries ∧ r.fu = halvingProblem.guess.entries ∧
      r.work.system.method = none ∧ r.ext.jacobians.reuse = false := by
  obtain ⟨fu, work, system, ext, started⟩ := Run.start_ok h
  have hfu : fu = halvingProblem.guess.entries := by
    have hresidual := congrArg (·.1) started.residual
    cases hresidual
    rfl
  have hprepared := start_ok started.prepared
  have hsystem : system.method = none := by
    cases hprepared.system
    rfl
  rw [started.eq]
  exact ⟨rfl, hfu, hsystem, hprepared.reuse⟩

/-- The system of either form has one entry that is not zero. -/
theorem steep_system (form : NewtonForm) :
    ∃ (D : Dense Exact) (N : RealMatrix 1 1),
      (eager.withForm form).systemMatrix steep = .dense D ∧
        D.Holds N ∧ N 0 0 ≠ 0 := by
  cases form with
  | direct => exact ⟨_, _, rfl, Dense.holds_iff_reads.2 steep_reads, two_ne_zero⟩
  | normal =>
    refine ⟨_, _, rfl, Dense.holds_iff_reads.2 steep_reads.gram, ?_⟩
    norm_num [Matrix.mul_apply]

theorem steep_rightSide (form : NewtonForm) :
    ∃ b, (eager.withForm form).rightSide (some steep) halvingProblem.guess.entries = .ok b ∧
      ∃ g : Fin 1 → ℝ, b.Holds g := by
  have hguess : halvingProblem.guess.entries.Holds fun _ : Fin 1 => 1 := rfl
  cases form with
  | direct => exact ⟨_, rfl, _, hguess⟩
  | normal =>
    obtain ⟨b, hb, hreads⟩ := steep_reads.applyTranspose hguess.size
    exact ⟨b, hb, _, hreads _ hguess⟩

theorem once_solves
    (h : Run.Reaches (eager.withForm form).strategy onceSetup () r)
    (active : r.isActive) :
    SolvesExactly ℝ (eager.withForm form) onceSetup r := by
  obtain ⟨r₀, printed, hstart, rfl⟩ := h.once (Newton.proceeds _ _) rfl active
  obtain ⟨hu, hfu, hmethod, hreuse⟩ := once_starts hstart
  obtain ⟨D, N, hsystem, hD, hN⟩ := steep_system form
  have hneeds : NeedsJacobian onceSetup { r₀ with printed } = true := by
    simp [NeedsJacobian, JacobianSettings.needsRebuild, hreuse]
  have hmade (J : Matrix Exact Exact) (w : Workspace Unit Exact Exact)
      (h : (onceSetup.problem.jacobianAt r₀.ext.jacobians r₀.u (some r₀.fu)).eval r₀.work =
        (.ok J, w)) : J = steep ∧ w.system.method = none := by
    rw [hu, hfu] at h
    cases (steep_made _ _).symm.trans h
    exact ⟨rfl, hmethod⟩
  refine ⟨fun J hJ => ?_, fun J w _ h => ?_, fun s J hs hJ => ?_⟩
  · cases hJ with
    | kept needed => cases hneeds.symm.trans needed
    | built w _ made =>
      obtain ⟨rfl, -⟩ := hmade J w made
      refine ⟨!![2], steep_reads, ?_⟩
      change Matrix.det (!![2] : FieldMatrix ℝ 1 1) ≠ 0
      norm_num
  · obtain ⟨rfl, hw⟩ := hmade J w h
    rw [hsystem]
    obtain ⟨_, w', hw', -⟩ :=
      (LinearSystem.factorize_single (Dense.holds_iff_reads.1 hD) hN
        (by rw [hw]; rfl)).exists_ok
    exact ⟨w', hw'⟩
  · cases (renew_renewed _).ok hs with
    | kept needed => cases hneeds.symm.trans needed
    | built J' w w' _ made factorized =>
      obtain ⟨rfl, hw⟩ := hmade J' w made
      obtain ⟨hstored, -, -⟩ := Renewed.built_model made factorized
      obtain rfl : steep = J := Option.some.inj (hstored.symm.trans hJ)
      obtain ⟨b, hb, g, hg⟩ := steep_rightSide form
      have hdirect : (w.system.method.getD
          (SolveMethod.forMatrix (.dense D : Matrix Exact Exact))).IsDirect := by
        rw [hw]
        exact Matrix.Holds.forMatrix_isDirect hD
      rw [hsystem] at factorized
      obtain ⟨x, v, hv, y, hy, hsolves⟩ := ((LinearSystem.direct_solves Backend.standard_direct
        (A := .dense D) hD hg onceSetup.problem.evaluate hdirect).ok factorized).exists_ok
      refine ⟨b, x, v, hfu ▸ hb, hv, N, g, y, ?_, hg, hy, hsolves⟩
      rw [hsystem]
      exact Dense.holds_iff_reads.1 hD

theorem once_isSquare : onceSetup.IsSquare () := by
  intro fu w h
  cases congrArg (·.1) h
  rfl

theorem once_started :
    ∃ r, Run.start (eager.withForm .direct).strategy onceSetup () = .ok r ∧ r.isActive := by
  have hvalidate : (eager.withForm .direct).validate = eager.search.search := frugal_validate
  obtain ⟨x, hx⟩ : ∃ x, (eager.withForm .direct).start onceSetup halvingProblem.guess.entries
      halvingProblem.guess.entries = .ok x := by
    unfold Newton.start
    rw [hvalidate]
    exact ⟨_, rfl⟩
  exact ⟨_, Run.Started.start_eq ⟨rfl, fun _ => rfl, hx, by decide, rfl⟩, rfl⟩

theorem once_agrees :
    (∃ r, Run.start (eager.withForm .direct).strategy onceSetup () = .ok r ∧ r.isActive) ∧
      (∀ form r, Run.Reaches (eager.withForm form).strategy onceSetup () r → r.isActive →
        SolvesExactly ℝ (eager.withForm form) onceSetup r) ∧
      (∀ r, Run.start (eager.withForm .direct).strategy onceSetup () = .ok r →
        Alike Run.Twin (Run.loop (eager.withForm .direct).strategy onceSetup 1)
          (Run.loop (eager.withForm .normal).strategy onceSetup 1) r r) ∧
      ((Algorithm.newton (eager.withForm .normal)).solve onceSetup ()).map
          (fun o => (o.solution, o.world)) =
        ((Algorithm.newton (eager.withForm .direct)).solve onceSetup ()).map
          (fun o => (o.solution, o.world)) := by
  obtain ⟨-, hsteps, hsolution⟩ := forms_agree eager onceSetup () Backend.standard_frames
    once_isSquare (fun _ h active => once_solves h active) fun _ h active => once_solves h active
  exact ⟨once_started, fun _ _ h active => once_solves h active, fun r hr => hsteps r hr 1,
    hsolution⟩

end Newton

end RootFinding
