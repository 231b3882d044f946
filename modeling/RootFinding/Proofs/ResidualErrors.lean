import RootFinding.Proofs.Calls
import RootFinding.Proofs.SafeModes
import RootFinding.Proofs.Steady

/-!
# Errors of the residual

When the caller's residual raises an error in a step and no callback of the caller's catches it, the
run stops with this error. An error that is raised while differences for a Jacobian are taken is
shown as a differentiation failure. Raised anywhere else in the step, at a trial point, in a line
search or in a product with a free matrix, a failure of a solve is stored as it is, and any other
error as a residual failure that names it.

The caller can tell which errors were raised by a ledger in his own state.

* `Action.Raises ledger e a s`: from `s` the action enters `e` in a ledger. `Action.Relays`: if it
  does, it ends with a certain error.
* `Problem.Logs p log`: the caller's `log` holds the errors of the residual.
* `Algorithm.step_relays`: the steps of all algorithms relay an error that is not raised while the
  Jacobian is made. `Algorithm.step_of_jacobianAt`: a step whose Jacobian fails ends at once.
* `Algorithm.residual_error_stops`: what this says about the loop.
-/

namespace RootFinding

open Action

variable {δ ε η σ R K S X α β : Type}

/-! ## Ledgers -/

namespace Action

/-- The errors of an outcome, one or none. -/
def errors : Except ε α → List ε
  | .ok _ => []
  | .error e => [e]

/-- From `s` the action adds the error `e` to a ledger. -/
def Raises (ledger : S → List δ) (e : δ) (a : Action ε S α) (s : S) : Prop :=
  ∃ es, ledger (a.eval s).2 = ledger s ++ es ∧ e ∈ es

/-- From `s` the action at most adds to a ledger, and when it adds the error `e` it ends with the
error `x`. -/
def Relays (ledger : S → List δ) (e : δ) (x : ε) (a : Action ε S α) (s : S) : Prop :=
  ∃ es, ledger (a.eval s).2 = ledger s ++ es ∧ (e ∈ es → (a.eval s).1 = .error x)

section Relays

variable {ledger : S → List δ} {e : δ} {x y : ε} {a : Action ε S α} {s : S}

theorem Relays.of_raises (h : a.Relays ledger e x s) (hraises : a.Raises ledger e s) :
    (a.eval s).1 = .error x := by
  obtain ⟨es, hes, hx⟩ := h
  obtain ⟨es', hes', he⟩ := hraises
  exact hx (List.append_cancel_left (hes.symm.trans hes') ▸ he)

/-- An action that does not raise the error relays it as anything. -/
theorem Relays.of_not_raises (h : a.Relays ledger e x s) (hraises : ¬a.Raises ledger e s) :
    a.Relays ledger e y s := by
  obtain ⟨es, hes, -⟩ := h
  exact ⟨es, hes, fun he => (hraises ⟨es, hes, he⟩).elim⟩

theorem relays_of_eq (h : ledger (a.eval s).2 = ledger s) : a.Relays ledger e x s :=
  ⟨[], by rw [h, List.append_nil], fun he => (List.not_mem_nil he).elim⟩

theorem Keeps.relays (h : Keeps ledger a) : a.Relays ledger e x s :=
  relays_of_eq (h s)

theorem Keeps.not_raises (h : Keeps ledger a) : ¬a.Raises ledger e s := by
  rintro ⟨es, hes, he⟩
  have hnil : [] = es := List.append_cancel_left ((List.append_nil _).trans ((h s).symm.trans hes))
  exact List.not_mem_nil (hnil ▸ he)

/-- The first action has not raised the error if it answers. -/
theorem Relays.bind {f : α → Action ε S β} (h : a.Relays ledger e x s)
    (hf : ∀ y t, a.eval s = (.ok y, t) → (f y).Relays ledger e x t) :
    Relays ledger e x (a >>= f) s := by
  obtain ⟨es, hes, hx⟩ := h
  unfold Relays
  rw [eval_bind]
  rcases ha : a.eval s with ⟨_ | y, t⟩
  · rw [ha] at hes hx
    refine ⟨es, hes, fun he => ?_⟩
    cases hx he
    rfl
  · rw [ha] at hes hx
    obtain ⟨es', hes', hx'⟩ := hf y t ha
    refine ⟨es ++ es', by rw [hes', hes, List.append_assoc], fun he => ?_⟩
    rcases List.mem_append.1 he with he | he
    · cases hx he
    · exact hx' he

theorem Relays.mapError (h : a.Relays ledger e x s) (g : ε → η) :
    (a.mapError g).Relays ledger e (g x) s := by
  obtain ⟨es, hes, hx⟩ := h
  refine ⟨es, hes, fun he => ?_⟩
  rw [eval_mapError, hx he]
  rfl

end Relays

end Action

/-- A part of the caller's state, as one of the workspace. -/
def Workspace.logged (log : σ → List δ) (w : Workspace σ R K) : List δ := log w.world

/-- A ledger of the caller's: a call of the residual enters the error that it raises, and a call of
the Jacobian enters nothing. -/
structure Problem.Logs (p : Problem σ R K) (log : σ → List (Thrown R K)) : Prop where
  returning : ∀ f, p.residual = .returning f → ∀ x w, log (f x w).2 = log w ++ errors (f x w).1
  filling : ∀ f, p.residual = .filling f → ∀ x w, log (f x w).2 = log w ++ errors (f x w).1
  jacobian : ∀ jac ∈ p.jacobian, ∀ x w, log (jac x w).2 = log w

/-- A problem with a ledger beside the caller's state. -/
def Problem.withLedger (p : Problem σ R K) : Problem (σ × List (Thrown R K)) R K :=
  { p with
    residual := match p.residual with
      | .returning f => .returning fun x w =>
        ((f x w.1).1, (f x w.1).2, w.2 ++ errors (f x w.1).1)
      | .filling f => .filling fun x w => ((f x w.1).1, (f x w.1).2, w.2 ++ errors (f x w.1).1)
    jacobian := p.jacobian.map fun jac x w => ((jac x w.1).1, (jac x w.1).2, w.2) }

/-- Every problem can keep a ledger. -/
theorem Problem.withLedger_logs (p : Problem σ R K) : p.withLedger.Logs Prod.snd where
  returning f hf x w := by
    cases hp : p.residual <;> simp only [withLedger, hp] at hf <;> cases hf
    rfl
  filling f hf x w := by
    cases hp : p.residual <;> simp only [withLedger, hp] at hf <;> cases hf
    rfl
  jacobian jac hjac x w := by
    obtain ⟨g, -, rfl⟩ := Option.mem_map.1 hjac
    rfl

/-- The iterative method passes on the errors of the products that it is given. -/
structure Backend.Forwards (B : Backend σ R K) : Prop where
  gmres {δ : Type} {ledger : Workspace σ R K → List δ} {e : δ} {x : Thrown R K}
    {apply : Vec K → Work σ R K (Vec K)} :
    (∀ v w, (apply v).Relays ledger e x w) →
      ∀ s b start w, (B.gmres apply s b start).Relays ledger e x w

section Routines

variable {log : σ → List δ} {e : δ} {x : Thrown R K}

theorem relays_straight :
    Work.Straight fun α (a : Work σ R K α) => ∀ w, a.Relays (Workspace.logged log) e x w where
  pure _ _ := relays_of_eq rfl
  bind ha hf w := (ha w).bind fun y t _ => hf y t
  throw _ _ := relays_of_eq rfl
  warn _ _ := relays_of_eq rfl

theorem Action.Relays.onWork {a : Work σ R K α} {r : Run σ R K X}
    (h : a.Relays (Workspace.logged log) e x r.work) :
    (Run.onWork a).Relays (Run.inWork (Workspace.logged log)) e x r := h

theorem relays_passage {T : Type} {π : Run σ R K X → T}
    (h : ∀ r t, π t = π r → t.work = r.work) :
    Run.Passage π fun α (a : Stepping σ R K X α) r =>
      a.Relays (Run.inWork (Workspace.logged log)) e x r where
  idle ha := relays_of_eq (congrArg (Workspace.logged log) (h _ _ ha))
  bind := Relays.bind

end Routines

variable [Scalar R] [Entry R K]

theorem Backend.standard_forwards : (Backend.standard : Backend σ R K).Forwards where
  gmres {_ ledger e x _} hA s b start :=
    Gmres.solve_of (Φ := fun α (a : Work σ R K α) => ∀ w, a.Relays ledger e x w)
      ⟨fun _ _ => relays_of_eq rfl, fun ha hf w => (ha w).bind fun y t _ => hf y t⟩
      (fun _ _ => relays_of_eq rfl) hA s b start

section Routines

variable {c : Setup σ R K} {p : Problem σ R K} {B : Backend σ R K} {log : σ → List (Thrown R K)}
  {e : Thrown R K}

theorem Problem.Logs.evaluate (hp : p.Logs log) (u : Vec K) (w : Workspace σ R K) :
    (p.evaluate u).Relays (Workspace.logged log) e e.ofResidual w := by
  have hcall : ∀ {β : Type} (f : Callable σ R K β (Tensor K)) (y : β),
      (∀ y w, log (f y w).2 = log w ++ errors (f y w).1) → ∀ w : Workspace σ R K,
        ((Workspace.call f y).mapError Thrown.ofResidual).Relays (Workspace.logged log) e
          e.ofResidual w := by
    intro β f y hf w
    refine Relays.mapError ⟨errors (f y w.world).1, hf y w.world, fun he => ?_⟩ _
    change (f y w.world).1 = .error e
    cases hanswer : (f y w.world).1 with
    | ok t =>
      rw [hanswer] at he
      exact (List.not_mem_nil he).elim
    | error e' =>
      rw [hanswer] at he
      rw [List.mem_singleton.1 he]
  have hrest : ∀ (t : Tensor K) (w : Workspace σ R K),
      Relays (Workspace.logged log) e e.ofResidual (do
        modify fun w : Workspace σ R K =>
          { w with residualShape := some (w.residualShape.getD t.shape) }
        return t.entries : Work σ R K (Vec K)) w := fun _ _ => relays_of_eq rfl
  refine Relays.bind (Keeps.relays (keeps_ofFault _)) fun x _ _ =>
    Relays.bind (relays_of_eq rfl) fun _ w _ => ?_
  dsimp only
  split
  next f hf => exact Relays.bind (hcall f x (hp.returning f hf) w) fun t w _ => hrest t w
  next f hf => exact Relays.bind (hcall f _ (hp.filling f hf) w) fun t w _ => hrest t w

/-- Storing a Jacobian enters nothing. -/
theorem Problem.jacobianAt_relays {x : Thrown R K} {s : JacobianSettings R} {u : Vec K}
    {fu : Option (Vec K)} {w : Workspace σ R K}
    (h : (p.rawJacobian s u fu).Relays (Workspace.logged log) e x w) :
    (p.jacobianAt s u fu).Relays (Workspace.logged log) e (.failure x.ofDifferentiation) w := by
  refine (h.mapError fun x => Thrown.failure x.ofDifferentiation).bind fun J t _ => ?_
  split
  · exact relays_of_eq rfl
  · exact relays_of_eq rfl

theorem Problem.Logs.jacobianAt (hp : p.Logs log) (s : JacobianSettings R) (u : Vec K)
    (fu : Option (Vec K)) (w : Workspace σ R K) :
    (p.jacobianAt s u fu).Relays (Workspace.logged log) e
      (.failure e.ofResidual.ofDifferentiation) w :=
  jacobianAt_relays <| rawJacobian_of relays_straight (fun u w => hp.evaluate u w)
    (fun jac hjac x w => relays_of_eq (hp.jacobian jac hjac x w.world)) s u fu w

/-- Neither the caller's Jacobian nor a free one calls the residual when it is made. -/
theorem Problem.Logs.jacobianAt_keeps (hp : p.Logs log) {s : JacobianSettings R}
    (h : p.jacobian ≠ none ∨ s.concrete = false) (u fu : Vec K) :
    Keeps (Workspace.logged log) (p.jacobianAt s u (some fu)) := by
  have hraw : Keeps (Workspace.logged log) (p.rawJacobian s u (some fu)) := by
    unfold Problem.rawJacobian
    split
    next jac hjac =>
      refine (keeps_ofFault _).bind fun x => ?_
      rw [hjac]
      exact Keeps.bind (fun w => hp.jacobian jac hjac x w.world) fun _ => keeps_pure _
    next hnone =>
      have hfree : s.concrete = false := h.resolve_left fun hsome => hsome hnone
      simp only [hfree, Bool.not_false, if_true]
      exact fun _ => rfl
  refine hraw.mapError.bind fun J => ?_
  split
  · exact keeps_throw _
  · exact fun _ => rfl

theorem Matrix.apply_relays (hp : p.Logs log) (J : Matrix R K) (v : Vec K) (w : Workspace σ R K) :
    (J.apply p.evaluate v).Relays (Workspace.logged log) e e.ofResidual w :=
  J.apply_of relays_straight (fun u w => hp.evaluate u w) v w

omit [Entry R K] in
theorem LinearSystem.factorize_relays {x : Thrown R K} (A : Matrix R K) (w : Workspace σ R K) :
    (factorize B A).Relays (Workspace.logged log) e x w :=
  relays_of_eq (factorize_ends_given (fun _ _ _ _ => rfl) B A w).state

theorem LinearSystem.solve_relays (hB : B.Forwards) (hp : p.Logs log) (b : Vec K)
    (w : Workspace σ R K) :
    (solve B p.evaluate b).Relays (Workspace.logged log) e e.ofResidual w := by
  have hiterative : ∀ (A : Matrix R K) (s : LinearSystem R K) (b : Vec K) (w : Workspace σ R K),
      (solveIteratively B p.evaluate A s b).Relays (Workspace.logged log) e e.ofResidual w := by
    intro A s b
    refine relays_straight.guard (relays_straight.throw _) ?_
    refine relays_straight.bind (hB.gmres (A.apply_relays hp) _ _ _) fun ⟨x, outcome⟩ => ?_
    cases outcome with
    | converged => exact relays_straight.pure x
    | stopped n => exact relays_straight.bind (relays_straight.warn _) fun _ =>
        relays_straight.pure x
  refine Relays.bind (relays_of_eq rfl) fun w _ _ => ?_
  dsimp only
  split
  · exact relays_of_eq rfl
  next A _ =>
    refine Relays.bind (relays_of_eq rfl) fun _ w' _ => Relays.bind ?_ fun x _ _ =>
      Keeps.relays (answer_keeps (fun _ _ _ _ => rfl) x)
    cases w.system.method.getD (SolveMethod.forMatrix A) with
    | lu => exact Keeps.relays (keeps_ofFault _)
    | splu => exact Keeps.relays (keeps_ofFault _)
    | lstsq => exact Keeps.relays (keeps_ofFault _)
    | gmres => exact hiterative A _ b w'

theorem Problem.Logs.passes (hp : c.problem.Logs log) (hB : c.backend.Forwards) :
    c.Passes fun α (a : Stepping σ R K X α) r =>
      a.Relays (Run.inWork (Workspace.logged log)) e e.ofResidual r where
  evaluate u r := Relays.onWork (hp.evaluate u r.work)
  factorize A r := Relays.onWork (LinearSystem.factorize_relays A r.work)
  solve b r := Relays.onWork (LinearSystem.solve_relays hB hp b r.work)
  apply J v r := Relays.onWork (J.apply_relays hp v r.work)

end Routines

/-! ## Line searches -/

namespace LineSearch

/-- A caller's search as it talks with the residual, before its answer is looked at. -/
def converse (f : SearchPoint K → σ → Dialogue R K × σ) (F : Vec K → Work σ R K (Vec K))
    (p : SearchPoint K) : Work σ R K R := do
  let dialogue ← Workspace.call (fun p w => ((.ok (f p w).1), (f p w).2)) p
  dialogue.run F

/-- A caller's search meets the error `e` of the residual and does not end with it. -/
def Catches (s : LineSearch σ R K) (F : Vec K → Work σ R K (Vec K))
    (log : σ → List (Thrown R K)) (e : Thrown R K) (p : SearchPoint K) (w : Workspace σ R K) :
    Prop :=
  ∃ f, s.method = .custom f ∧ (converse f F p).Raises (Workspace.logged log) e w ∧
    ((converse f F p).eval w).1 ≠ .error e.ofResidual

variable {log : σ → List (Thrown R K)} {e : Thrown R K} {p : Problem σ R K}

omit [Entry R K] in
theorem searchCustom_eq (f : SearchPoint K → σ → Dialogue R K × σ)
    (F : Vec K → Work σ R K (Vec K)) (p : SearchPoint K) :
    searchCustom f F p = (converse f F p).mapError ofError >>= fun a =>
      if 0.0 < a ∧ a ≤ 1.0 then return a
      else Action.fail
        { kind := .general
          values := [.text ("Line search returned α = " ++ Written.write .shortest a ++
            ", expected 0 < α <= 1.")]
          flag := some 1 } := rfl

/-- A talk with the residual relays an error that it ends with if it meets it. -/
theorem converse_relays (hp : p.Logs log) {f : SearchPoint K → σ → Dialogue R K × σ}
    (hf : ∀ x w, log (f x w).2 = log w) {x : SearchPoint K} {w : Workspace σ R K}
    (hends : (converse f p.evaluate x).Raises (Workspace.logged log) e w →
      ((converse f p.evaluate x).eval w).1 = .error e.ofResidual) :
    (converse f p.evaluate x).Relays (Workspace.logged log) e e.ofResidual w := by
  have hdialogue : ∀ (d : Dialogue R K) (w : Workspace σ R K),
      ∃ es, Workspace.logged log ((d.run p.evaluate).eval w).2 = Workspace.logged log w ++ es := by
    intro d
    induction d with
    | answer a => exact fun w => ⟨[], (List.append_nil _).symm⟩
    | raise e => exact fun w => ⟨[], (List.append_nil _).symm⟩
    | evaluate u next ih =>
      intro w
      obtain ⟨es, hes, -⟩ := hp.evaluate (e := e) u w
      obtain ⟨es', hes'⟩ := ih _ ((p.evaluate u).eval w).2
      exact ⟨es ++ es', hes'.trans (by rw [hes, List.append_assoc])⟩
  obtain ⟨es, hes⟩ := hdialogue (f x w.world).1 { w with world := (f x w.world).2 }
  have hadded := hes.trans (congrArg (· ++ es) (hf x w.world))
  exact ⟨es, hadded, fun he => hends ⟨es, hadded, he⟩⟩

/-- A line search relays an error of the residual that it does not catch. -/
theorem search_relays (hp : p.Logs log) (s : LineSearch σ R K)
    (hs : ∀ f, s.method = .custom f → ∀ x w, log (f x w).2 = log w) (x : SearchPoint K)
    (w : Workspace σ R K) (hcatch : ¬s.Catches p.evaluate log e x w) :
    (s.search p.evaluate x).Relays (Workspace.logged log) e e.ofResidual w := by
  unfold search
  split
  next => exact relays_of_eq rfl
  next f hf =>
    have hconverse : (converse f p.evaluate x).Relays (Workspace.logged log) e e.ofResidual w :=
      converse_relays hp (hs f hf) fun h => Classical.byContradiction fun hne =>
        hcatch ⟨f, hf, h, hne⟩
    have hshown : ofError e.ofResidual = e.ofResidual := by cases e <;> rfl
    rw [searchCustom_eq]
    refine Relays.bind (hshown ▸ hconverse.mapError ofError) fun a t _ => ?_
    split <;> exact relays_of_eq rfl
  next => exact searchBuiltIn_of relays_straight (fun u w => hp.evaluate u w) s x w

end LineSearch

/-! ## Steps -/

/-- A Newton step keeps its line search. -/
theorem Newton.step_keeps_search (a : Newton σ R K) (c : Setup σ R K) :
    Keeps (fun r : Run σ R K (State σ R K) => r.ext.search) (a.step c) := fun _ =>
  Newton.step_of (Run.passage_keeps fun _ _ ht => congrArg Prod.snd ht)
    ⟨fun _ _ => rfl, fun _ _ => rfl, fun _ _ => rfl, fun _ _ _ => rfl⟩ (fun _ => rfl)
    fun _ _ _ => rfl

section Jacobians

variable {c : Setup σ R K} {x : Thrown R K}

omit [Scalar R] [Entry R K] in
theorem Run.onWork_of_error {a : Work σ R K α} {r : Run σ R K X} {w : Workspace σ R K}
    (h : a.eval r.work = (.error x, w)) :
    (Run.onWork a).eval r = (.error x, { r with work := w }) := by
  simp only [Run.onWork, eval_within, h]

theorem Newton.step_of_jacobianAt {a : Newton σ R K} {r t : Run σ R K (State σ R K)}
    (hneeded : NeedsJacobian c r = true)
    (h : (Run.onWork (c.problem.jacobianAt r.ext.jacobians r.u (some r.fu))).eval r =
      (.error x, t)) : (a.step c).eval r = (.error x, t) := by
  unfold NeedsJacobian at hneeded
  simp [step, renew, eval_bind, hneeded, h]

theorem PseudoTransient.step_of_jacobianAt {r t : Run σ R K (State R K)}
    (h : (Run.onWork (c.problem.jacobianAt r.ext.jacobians r.u (some r.fu))).eval r =
      (.error x, t)) : (step c).eval r = (.error x, t) := by
  simp [step, direction, eval_bind, h]

theorem TrustRegion.step_of_jacobianAt {r t : Run σ R K (State R K)}
    (hrenew : r.ext.renew = true)
    (h : (Run.onWork (c.problem.jacobianAt r.ext.jacobians r.u (some r.fu))).eval r =
      (.error x, t)) : (step c).eval r = (.error x, t) := by
  simp [step, propose, remodel, eval_bind, hrenew, h]

theorem LevenbergMarquardt.step_of_jacobianAt {a : LevenbergMarquardt R}
    {r t : Run σ R K (State R K)} (hrenew : r.ext.renew = true)
    (h : (Run.onWork (c.problem.jacobianAt r.ext.jacobians r.u (some r.fu))).eval r =
      (.error x, t)) : (a.step c).eval r = (.error x, t) := by
  simp [step, renewJacobian, eval_bind, hrenew, h]

end Jacobians

namespace Algorithm

/-- The functions that the caller has passed to an algorithm leave his ledger alone. -/
def Unlogged (log : σ → List δ) : Algorithm σ R K → Prop
  | newton a => ∀ s f, a.search.search = .ok s → s.method = .custom f →
      ∀ x w, log (f x w).2 = log w
  | pseudoTransient _ => True
  | trustRegion _ => True
  | levenbergMarquardt _ => True
  | spectralResidual a => ∀ rule ∈ a.tolerance, ∀ x w, log (rule x w).2 = log w

/-- The settings of the Jacobian that a step from `r` makes before all else, if it makes one. -/
def jacobian? (c : Setup σ R K) : (a : Algorithm σ R K) → Run σ R K a.State →
    Option (JacobianSettings R)
  | newton _, r => if Newton.NeedsJacobian c r then some r.ext.jacobians else none
  | pseudoTransient _, r => some r.ext.jacobians
  | trustRegion _, r => if r.ext.renew then some r.ext.jacobians else none
  | levenbergMarquardt _, r => if r.ext.renew then some r.ext.jacobians else none
  | spectralResidual _, _ => none

/-- The residual raises `e` while a step from `r` takes differences for its Jacobian. -/
def RaisesInJacobian (a : Algorithm σ R K) (c : Setup σ R K) (log : σ → List (Thrown R K))
    (e : Thrown R K) (r : Run σ R K a.State) : Prop :=
  ∃ s ∈ a.jacobian? c r,
    (c.problem.jacobianAt s r.u (some r.fu)).Raises (Workspace.logged log) e r.work

/-- A line search of the caller's catches `e` in a step from `r`. -/
def Catches (c : Setup σ R K) (log : σ → List (Thrown R K)) (e : Thrown R K) :
    (a : Algorithm σ R K) → Run σ R K a.State → Prop
  | newton a, r => ∃ du s, (a.aim c).eval r = (.ok du, s) ∧
      r.ext.search.Catches c.problem.evaluate log e ⟨r.u, r.fu, du⟩ s.work
  | pseudoTransient _, _ => False
  | trustRegion _, _ => False
  | levenbergMarquardt _, _ => False
  | spectralResidual _, _ => False

/-- The line search of a state is the one that was chosen. -/
def Chosen : (a : Algorithm σ R K) → a.State → Prop
  | newton a, s => a.search.search = .ok s.search
  | pseudoTransient _, _ => True
  | trustRegion _, _ => True
  | levenbergMarquardt _, _ => True
  | spectralResidual _, _ => True

variable {a : Algorithm σ R K} {c : Setup σ R K} {log : σ → List (Thrown R K)} {e : Thrown R K}
  {r : Run σ R K a.State}

/-- A step relays an error of the residual that is not raised while its Jacobian is made. -/
theorem step_relays (hB : c.backend.Forwards) (hp : c.problem.Logs log) (ha : a.Unlogged log)
    (hr : a.Chosen r.ext) (hjacobian : ¬a.RaisesInJacobian c log e r)
    (hcatch : ¬a.Catches c log e r) :
    (a.strategy.step c).Relays (Run.inWork (Workspace.logged log)) e e.ofResidual r := by
  have hmade : ∀ s ∈ a.jacobian? c r,
      (Run.onWork (c.problem.jacobianAt s r.u (some r.fu)) :
        Stepping σ R K a.State _).Relays (Run.inWork (Workspace.logged log)) e e.ofResidual r :=
    fun s hs => Relays.onWork <|
      (hp.jacobianAt s r.u (some r.fu) r.work).of_not_raises fun h => hjacobian ⟨s, hs, h⟩
  cases a with
  | newton a =>
    exact Newton.step_of (relays_passage fun _ _ ht => congrArg Prod.fst ht) (hp.passes hB)
      (fun hneeded => hmade _ (if_pos hneeded)) fun du s hs => Relays.onWork <|
        LineSearch.search_relays hp _ (fun f hf => ha _ f hr hf) _ _ fun h => hcatch ⟨du, s, hs, h⟩
  | pseudoTransient a =>
    exact PseudoTransient.step_of (relays_passage fun _ _ ht => ht) (hp.passes hB) (hmade _ rfl)
  | trustRegion a =>
    exact TrustRegion.step_of (relays_passage fun _ _ ht => ht) (hp.passes hB)
      fun hrenew => hmade _ (if_pos hrenew)
  | levenbergMarquardt a =>
    exact LevenbergMarquardt.step_of (relays_passage fun _ _ ht => ht) (hp.passes hB)
      fun hrenew => hmade _ (if_pos hrenew)
  | spectralResidual a =>
    exact SpectralResidual.step_of (relays_passage fun _ _ ht => ht) (hp.passes hB)
      fun rule hrule x => relays_of_eq (ha rule hrule x r.work.world)

/-- A step that begins with a Jacobian which fails ends there. -/
theorem step_of_jacobianAt {s : JacobianSettings R} (hs : s ∈ a.jacobian? c r) {x : Thrown R K}
    {w : Workspace σ R K}
    (h : (c.problem.jacobianAt s r.u (some r.fu)).eval r.work = (.error x, w)) :
    (a.strategy.step c).eval r = (.error x, { r with work := w }) := by
  cases a with
  | newton a =>
    obtain ⟨hneeded, ⟨⟩⟩ := Option.ite_none_right_eq_some.1 hs
    exact Newton.step_of_jacobianAt hneeded (Run.onWork_of_error h)
  | pseudoTransient a =>
    cases hs
    exact PseudoTransient.step_of_jacobianAt (Run.onWork_of_error h)
  | trustRegion a =>
    obtain ⟨hrenew, ⟨⟩⟩ := Option.ite_none_right_eq_some.1 hs
    exact TrustRegion.step_of_jacobianAt hrenew (Run.onWork_of_error h)
  | levenbergMarquardt a =>
    obtain ⟨hrenew, ⟨⟩⟩ := Option.ite_none_right_eq_some.1 hs
    exact LevenbergMarquardt.step_of_jacobianAt hrenew (Run.onWork_of_error h)
  | spectralResidual a => cases hs

/-- Only differences for a concrete Jacobian call the residual while a Jacobian is made. -/
theorem RaisesInJacobian.concrete (hp : c.problem.Logs log) (h : a.RaisesInJacobian c log e r) :
    c.problem.jacobian = none ∧ ∃ s ∈ a.jacobian? c r, s.concrete = true := by
  obtain ⟨s, hs, hraises⟩ := h
  have hsilent : ¬(c.problem.jacobian ≠ none ∨ s.concrete = false) := fun h =>
    (hp.jacobianAt_keeps h r.u r.fu).not_raises hraises
  rw [not_or, not_not, Bool.not_eq_false] at hsilent
  exact ⟨hsilent.1, s, hs, hsilent.2⟩

/-- The line search of a state stays the one that was chosen. -/
theorem chosen_of_reaches {world : σ} (hr : Run.Reaches a.strategy c world r) :
    a.Chosen r.ext := by
  obtain ⟨r₀, hstart, hleads⟩ := hr
  refine hleads.invariant (I := fun r => a.Chosen r.ext) ?_ (fun _ hs => hs) fun s t hs _ hst => ?_
  · cases a with
    | newton a =>
      exact (Newton.start_ok (Run.start_prepared hstart)).search
    | pseudoTransient a | trustRegion a | levenbergMarquardt a | spectralResidual a => trivial
  · have hkept : a.Chosen ((a.strategy.step c).eval s).2.ext := by
      cases a with
      | newton a =>
        have hsame : ((a.step c).eval s).2.ext.search = s.ext.search := a.step_keeps_search c s
        exact hs.trans (congrArg Except.ok hsame.symm)
      | pseudoTransient a | trustRegion a | levenbergMarquardt a | spectralResidual a => trivial
    rcases Run.step_cases hst with ⟨s', hs', rfl⟩ | ⟨f, s', t', hs', ended, rfl⟩
    · rw [Run.recorded_ext]
      rwa [hs'] at hkept
    · rw [Run.recorded_ext, ended.ext_eq]
      rwa [hs'] at hkept

end Algorithm

/-! ## Runs -/

/-- A run is stopped by a failure. -/
structure Run.StoppedBy (f : Failure R K) (r : Run σ R K X) : Prop where
  stopped : r.stopped = true
  error : r.error = some f
  code : r.code = f.returnCode

/-- A step of the strategy that fails stops the run. -/
theorem Run.stoppedBy_of_failure {S : Strategy σ R K X} {c : Setup σ R K} {r s : Run σ R K X}
    {f : Failure R K} (hS : S.Proceeds c) (hr : r.Sized c) (hactive : r.isActive = true)
    (hs : (S.step c).eval r = (.error (.failure f), s)) :
    ∃ t, (∀ fuel, (loop S c (fuel + 1)).eval r = (.ok (), t)) ∧ t.StoppedBy f := by
  obtain ⟨t, ht, herror⟩ := step_of_failure hs (((hS r).error hs).sized hr)
  have hstopped : t.stopped = true ∧ t.code = f.returnCode := by
    rcases step_cases ht with ⟨s', hs', -⟩ | ⟨f', s', t', hs', ended, rfl⟩
    · cases hs.symm.trans hs'
    · cases hs.symm.trans hs'
      rw [recorded_stopped, recorded_code]
      exact ⟨ended.stopped_eq, ended.code_eq⟩
  refine ⟨t, fun fuel => ?_, hstopped.1, herror, hstopped.2⟩
  obtain ⟨_, t', hidle, rfl⟩ :=
    (loop_idle (S := S) (c := c) fuel (isActive_of_stopped hstopped.1)).exists_ok
  simp [loop, eval_bind, hactive, ht, hidle]

/-- How a failure shows an error of the residual: it is this error, if that is a failure of a solve,
and otherwise a residual failure that the error has caused. -/
def Failure.Shows (f : Failure R K) : Thrown R K → Prop
  | .failure g => f = g
  | .fault g => f.kind = .residual ∧ f.cause = some g.name ∧ f.returnCode = .failure

/-- How a failure shows an error of the residual in a difference for a Jacobian: it is this error, if
that is a differentiation failure, and otherwise a differentiation failure that the error, or the
residual failure that stands for it, has caused. -/
def Failure.ShowsInJacobian (f : Failure R K) (e : Thrown R K) : Prop :=
  e = .failure f ∧ f.kind = .differentiation ∨
    f.kind = .differentiation ∧ f.cause = some e.ofResidual.name ∧ f.returnCode = .failure

omit [Entry R K] in
theorem Thrown.shows_ofResidual (e : Thrown R K) :
    ∃ f : Failure R K, e.ofResidual = .failure f ∧ f.Shows e := by
  cases e with
  | failure f => exact ⟨f, rfl, rfl⟩
  | fault e => exact ⟨_, rfl, rfl, rfl, rfl⟩

omit [Entry R K] in
theorem Thrown.showsInJacobian (e : Thrown R K) :
    (e.ofResidual.ofDifferentiation : Failure R K).ShowsInJacobian e := by
  cases e with
  | failure f =>
    by_cases hkind : f.kind = .differentiation
    · have hkept : (ofResidual (.failure f)).ofDifferentiation = f := if_pos hkind
      rw [hkept]
      exact .inl ⟨rfl, hkind⟩
    · refine .inr ?_
      have hnamed : (ofResidual (.failure f)).ofDifferentiation = _ := if_neg hkind
      rw [hnamed]
      exact ⟨rfl, rfl, rfl⟩
  | fault e => exact .inr ⟨rfl, rfl, rfl⟩

namespace Algorithm

variable {a : Algorithm σ R K} {c : Setup σ R K} {log : σ → List (Thrown R K)} {e : Thrown R K}
  {world : σ} {r : Run σ R K a.State}

/-- **An error of the residual stops the run.** -/
theorem residual_error_stops (hB : c.backend.Forwards) (hp : c.problem.Logs log)
    (ha : a.Unlogged log) (hr : Run.Reaches a.strategy c world r) (hactive : r.isActive = true)
    (hraises : (a.strategy.step c).Raises (Run.inWork (Workspace.logged log)) e r)
    (hcatch : ¬a.Catches c log e r) :
    ∃ f t, (∀ fuel, (Run.loop a.strategy c (fuel + 1)).eval r = (.ok (), t)) ∧ t.StoppedBy f ∧
      (a.RaisesInJacobian c log e r → f.ShowsInJacobian e) ∧
      (¬a.RaisesInJacobian c log e r → f.Shows e) := by
  obtain ⟨r₀, hstart, hleads⟩ := id hr
  have hsized : r.Sized c := hleads.sized (a.proceeds c) (Run.start_sized hstart)
  by_cases hjacobian : a.RaisesInJacobian c log e r
  · obtain ⟨s, hs, hmade⟩ := id hjacobian
    have hfails := (hp.jacobianAt s r.u (some r.fu) r.work).of_raises hmade
    rcases hmade' : (c.problem.jacobianAt s r.u (some r.fu)).eval r.work with ⟨_, w⟩
    rw [hmade'] at hfails
    cases hfails
    obtain ⟨t, hloop, hstopped⟩ :=
      Run.stoppedBy_of_failure (a.proceeds c) hsized hactive (step_of_jacobianAt hs hmade')
    exact ⟨_, t, hloop, hstopped, fun _ => e.showsInJacobian, fun h => (h hjacobian).elim⟩
  · obtain ⟨f, hf, hshows⟩ := e.shows_ofResidual
    have hfails := (step_relays hB hp ha (chosen_of_reaches hr) hjacobian hcatch).of_raises hraises
    rw [hf] at hfails
    rcases hstep : (a.strategy.step c).eval r with ⟨_, s⟩
    rw [hstep] at hfails
    cases hfails
    obtain ⟨t, hloop, hstopped⟩ := Run.stoppedBy_of_failure (a.proceeds c) hsized hactive hstep
    exact ⟨f, t, hloop, hstopped, fun h => (hjacobian h).elim, fun _ => hshows⟩

end Algorithm

/-! ## A residual with a fence -/

/-- A failure that a residual raises. -/
def fenceFailure : Failure Numeral Number := .ofMessage .stall "fence"

/-- The identity up to one, where a fence stands. The caller counts how often it was met. -/
def fencedResidual : Callable Nat Numeral Number (Tensor Number) (Tensor Number) := fun t met =>
  if 1.0 < (t.entries.toList.headD (.real 0.0)).re then (.error (.failure fenceFailure), met + 1)
  else (.ok t, met)

/-- The residual from the fence on, with a Jacobian of the caller's or none. -/
def fencedProblem
    (jacobian : Option (Callable Nat Numeral Number (Tensor Number) (JacobianValue Number))) :
    Problem Nat Numeral Number where
  residual := .returning fencedResidual
  guess := ⟨[1], .ofList [.real 1.0]⟩
  jacobian := jacobian

def fencedSetup
    (jacobian : Option (Callable Nat Numeral Number (Tensor Number) (JacobianValue Number))) :
    Setup Nat Numeral Number where
  problem := fencedProblem jacobian
  options :=
    { maxiters := 5, abstol := 1e-8, reltol := 1e-8, termination := .standard, norm := Vec.norm }
  backend := .standard

/-- A Jacobian that leads over the fence. -/
def misleading : Callable Nat Numeral Number (Tensor Number) (JacobianValue Number) :=
  fun _ met => (.ok (.number (.real (-1.0))), met)

/-- The errors that were raised, by their number. -/
def fenceLog (met : Nat) : List (Thrown Numeral Number) :=
  List.replicate met (.failure fenceFailure)

theorem fenced_logs
    {jacobian : Option (Callable Nat Numeral Number (Tensor Number) (JacobianValue Number))}
    (hjacobian : ∀ jac ∈ jacobian, ∀ x met, (jac x met).2 = met) :
    (fencedProblem jacobian).Logs fenceLog where
  returning f hf x met := by
    cases hf
    unfold fencedResidual
    split
    · exact List.replicate_succ'
    · exact (List.append_nil _).symm
  filling f hf := by cases hf
  jacobian jac hjac x met := congrArg fenceLog (hjacobian jac hjac x met)

/-- Whether a run of an algorithm is active at its start, how often it has met the fence then, and
how often after a step. -/
def fenceTally (a : Algorithm Nat Numeral Number)
    (jacobian : Option (Callable Nat Numeral Number (Tensor Number) (JacobianValue Number))) :
    Option (Bool × Nat × Nat) := do
  let r ← (Run.start a.strategy (fencedSetup jacobian) 0).toOption
  return (r.isActive, r.work.world,
    ((a.strategy.step (fencedSetup jacobian)).eval r).2.work.world)

theorem fence_met {a : Algorithm Nat Numeral Number}
    {jacobian : Option (Callable Nat Numeral Number (Tensor Number) (JacobianValue Number))}
    (h : fenceTally a jacobian = some (true, 0, 1)) :
    ∃ r, Run.start a.strategy (fencedSetup jacobian) 0 = .ok r ∧ r.isActive = true ∧
      (a.strategy.step (fencedSetup jacobian)).Raises (Run.inWork (Workspace.logged fenceLog))
        (.failure fenceFailure) r := by
  unfold fenceTally at h
  cases hstart : Run.start a.strategy (fencedSetup jacobian) 0 with
  | error e =>
    rw [hstart] at h
    cases h
  | ok r =>
    rw [hstart] at h
    obtain ⟨hactive, hworlds⟩ := Prod.mk.inj (Option.some.inj h)
    obtain ⟨hbefore, hafter⟩ := Prod.mk.inj hworlds
    refine ⟨r, rfl, hactive, [.failure fenceFailure], ?_, List.mem_singleton_self _⟩
    change fenceLog _ = fenceLog r.work.world ++ _
    rw [hbefore, hafter]
    rfl

/-- With the full step there is no callback that could catch an error. -/
theorem Newton.standard_not_catches {c : Setup σ R K} {log : σ → List (Thrown R K)} {e : Thrown R K}
    {form : NewtonForm} {r : Run σ R K (Algorithm.newton (.standard form)).State}
    (hr : (Algorithm.newton (.standard form)).Chosen r.ext) :
    ¬(Algorithm.newton (.standard form)).Catches c log e r := by
  rintro ⟨du, s, -, f, hf, -⟩
  have hsearch : r.ext.search = .standard := (Except.ok.inj hr).symm
  rw [hsearch] at hf
  cases hf

omit [Entry R K] in
theorem Newton.standard_unlogged (log : σ → List δ) (form : NewtonForm) :
    (Algorithm.newton (.standard form) : Algorithm σ R K).Unlogged log := by
  intro s f hs hf
  cases hs
  cases hf

/-- A Newton step that meets the fence at its new iterate stops the run with the failure that was
raised there. -/
theorem fence_ahead :
    ∃ r f t, Run.start (Algorithm.newton (.standard .direct)).strategy
        (fencedSetup (some misleading)) 0 = .ok r ∧
      (∀ fuel, (Run.loop (Algorithm.newton (.standard .direct)).strategy
        (fencedSetup (some misleading)) (fuel + 1)).eval r = (.ok (), t)) ∧
      t.StoppedBy f ∧ f = fenceFailure := by
  have htally : fenceTally (.newton (.standard .direct)) (some misleading) = some (true, 0, 1) := by
    decide +kernel
  obtain ⟨r, hstart, hactive, hraises⟩ := fence_met htally
  have hlogs : (fencedProblem (some misleading)).Logs fenceLog := fenced_logs fun jac hjac => by
    cases hjac
    exact fun _ _ => rfl
  have hreaches : Run.Reaches (Algorithm.newton (.standard .direct)).strategy
      (fencedSetup (some misleading)) 0 r := ⟨r, hstart, .refl⟩
  obtain ⟨f, t, hloop, hstopped, -, hshows⟩ :=
    Algorithm.residual_error_stops Backend.standard_forwards hlogs
      (Newton.standard_unlogged fenceLog .direct) hreaches hactive hraises
      (Newton.standard_not_catches (Algorithm.chosen_of_reaches hreaches))
  refine ⟨r, f, t, hstart, hloop, hstopped, hshows fun h => ?_⟩
  cases (h.concrete hlogs).1

/-- How a loop of one step ends at the fence. -/
def fenceCode (a : Algorithm Nat Numeral Number)
    (jacobian : Option (Callable Nat Numeral Number (Tensor Number) (JacobianValue Number))) :
    Option ReturnCode := do
  let r ← (Run.start a.strategy (fencedSetup jacobian) 0).toOption
  return ((Run.loop a.strategy (fencedSetup jacobian) 1).eval r).2.code

/-- An error of the residual is not shown as itself wherever it is raised: a failure that stands for
a stalled solve, raised in a difference for the Jacobian, ends the solve with another code. -/
theorem fence_in_differences :
    ¬∀ (a : Algorithm Nat Numeral Number) (c : Setup Nat Numeral Number)
      (log : Nat → List (Thrown Numeral Number)) (e : Thrown Numeral Number) (world : Nat)
      (r : Run Nat Numeral Number a.State),
      c.backend.Forwards → c.problem.Logs log → a.Unlogged log →
        Run.Reaches a.strategy c world r → r.isActive = true →
        (a.strategy.step c).Raises (Run.inWork (Workspace.logged log)) e r →
        ¬a.Catches c log e r →
        ∃ f t, (∀ fuel, (Run.loop a.strategy c (fuel + 1)).eval r = (.ok (), t)) ∧
          t.StoppedBy f ∧ f.Shows e := by
  intro hclaim
  have htally : fenceTally (.newton (.standard .direct)) none = some (true, 0, 1) := by
    decide +kernel
  obtain ⟨r, hstart, hactive, hraises⟩ := fence_met htally
  have hreaches : Run.Reaches (Algorithm.newton (.standard .direct)).strategy
      (fencedSetup none) 0 r := ⟨r, hstart, .refl⟩
  obtain ⟨f, t, hloop, hstopped, rfl⟩ := hclaim (.newton (.standard .direct)) (fencedSetup none)
    fenceLog _ 0 r Backend.standard_forwards (fenced_logs fun _ h => by cases h)
    (Newton.standard_unlogged fenceLog .direct) hreaches hactive hraises
    (Newton.standard_not_catches (Algorithm.chosen_of_reaches hreaches))
  have hcode : fenceCode (.newton (.standard .direct)) none = some .failure := by decide +kernel
  have hshown : fenceCode (.newton (.standard .direct)) none = some t.code := by
    unfold fenceCode
    rw [hstart]
    exact congrArg (fun x => some x.2.code) (hloop 0)
  have hstalled : t.code = .stalled := hstopped.code
  rw [hshown, hstalled] at hcode
  cases hcode

end RootFinding
