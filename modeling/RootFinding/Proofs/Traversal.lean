import RootFinding.LineSearch.Search
import RootFinding.Proofs.Frames

/-!
# Routines over the residual

Difference quotients, Jacobians and line searches reach the workspace through the residual and the
caller's other functions only. What holds of these, and is inherited by sequences, holds of every
such routine.

* `Action.Sequential Φ`: pure actions have the property `Φ`, and sequences inherit it.
* `Work.Straight Φ`: so do errors and warnings on the workspace; `Work.Hereditary Φ`: so do the other
  constructs of an action on the workspace.
* `Problem.evaluate_of`, `Problem.rawJacobian_of`, `LineSearch.search_of`: an evaluation of the
  residual, a Jacobian and a line search have the property if the calls that they make have it.
* `Problem.jacobianAt_keeps`: what the making of a Jacobian leaves alone.
-/

namespace RootFinding

open Action

theorem Action.ext {ε S α : Type} {a b : Action ε S α} (h : ∀ s, a.eval s = b.eval s) : a = b :=
  funext h

/-- A property of actions that pure actions have and sequences inherit. -/
structure Action.Sequential {ε S : Type} (Φ : ∀ α : Type, Action ε S α → Prop) : Prop where
  pure {α : Type} (x : α) : Φ α (pure x)
  bind {α β : Type} {a : Action ε S α} {f : α → Action ε S β} :
    Φ α a → (∀ x, Φ β (f x)) → Φ β (a >>= f)

/-- A property of actions on the workspace that sequences, errors and warnings inherit, so what is
put together from these without a look at an error. -/
structure Work.Straight {σ R K : Type} (Φ : ∀ α : Type, Work σ R K α → Prop) : Prop
    extends Action.Sequential Φ where
  throw {α : Type} (e : Thrown R K) : Φ α (throw e)
  warn (text : String) : Φ Unit (Workspace.warn text)

/-- A property of actions on the workspace that all constructs of them inherit, calls of the
caller's functions apart. -/
structure Work.Hereditary {σ R K : Type} (Φ : ∀ α : Type, Work σ R K α → Prop) : Prop
    extends Work.Straight Φ where
  attempt {α : Type} {a : Work σ R K α} : Φ α a → Φ (Except (Thrown R K) α) (Action.attempt a)
  mapError {α : Type} {a : Work σ R K α} (f : Thrown R K → Thrown R K) :
    Φ α a → Φ α (a.mapError f)

section Merits

variable {ε R S : Type} [Scalar R] {Φ : ∀ α : Type, Action ε S α → Prop}
  {phi slope : R → Action ε S R}

theorem Armijo.backtrack_of (hΦ : Sequential Φ) (hphi : ∀ a, Φ R (phi a)) (f0 d0 least : R)
    (fuel : Nat) (a0 g0 a1 g1 : R) :
    Φ (Option R) (backtrack phi f0 d0 least fuel a0 g0 a1 g1) := by
  induction fuel generalizing a0 g0 a1 g1 with
  | zero => exact hΦ.pure _
  | succ fuel ih =>
    unfold backtrack
    split
    · refine hΦ.bind (hphi _) fun g2 => ?_
      split
      · exact hΦ.pure _
      · exact ih _ _ _ _
    · exact hΦ.pure _

theorem Armijo.search_of (hΦ : Sequential Φ) (hphi : ∀ a, Φ R (phi a)) (f0 d0 least : R) :
    Φ (Option R) (search phi f0 d0 least) := by
  refine hΦ.bind (hphi _) fun g0 => ?_
  split
  · exact hΦ.pure _
  · refine hΦ.bind (hphi _) fun g1 => ?_
    split
    · exact hΦ.pure _
    · exact backtrack_of hΦ hphi _ _ _ _ _ _ _ _

theorem Wolfe.trials_of (hΦ : Sequential Φ) (hphi : ∀ a, Φ R (phi a)) (hslope : ∀ a, Φ R (slope a))
    (g : Goal R) (fuel : Nat) (s : State R) (step : R) :
    Φ (Option R) (trials phi slope g fuel s step) := by
  induction fuel generalizing s step with
  | zero =>
    unfold trials
    split
    · exact hΦ.pure _
    · exact hΦ.bind (hphi _) fun _ => hΦ.bind (hslope _) fun _ => hΦ.pure _
  | succ fuel ih =>
    unfold trials
    split
    · exact hΦ.pure _
    · refine hΦ.bind (hphi _) fun value => hΦ.bind (hslope _) fun d => ?_
      dsimp only
      split
      · exact hΦ.pure _
      · exact hΦ.pure _
      · exact ih _ _

theorem Wolfe.search_of (hΦ : Sequential Φ) (hphi : ∀ a, Φ R (phi a)) (hslope : ∀ a, Φ R (slope a))
    (f0 least : R) : Φ (Option R) (search phi slope f0 least) := by
  refine hΦ.bind (hslope _) fun d0 => ?_
  dsimp only
  split
  · exact hΦ.pure _
  · exact trials_of hΦ hphi hslope _ _ _ _

end Merits

variable {σ R K : Type} {Φ : ∀ α : Type, Work σ R K α → Prop}

theorem Work.Straight.ofFault (hΦ : Work.Straight Φ) {α : Type} (r : Except Fault α) :
    Φ α (Action.ofFault r) := by
  cases r with
  | ok x => exact hΦ.pure x
  | error f => exact hΦ.throw _

theorem Work.Straight.guard (hΦ : Work.Straight Φ) {α : Type} {p : Prop} [Decidable p]
    {a : Work σ R K PUnit} {b : Work σ R K α} (ha : Φ PUnit a) (hb : Φ α b) :
    Φ α (if p then a >>= fun _ => b else b) := by
  split
  · exact hΦ.bind ha fun _ => hb
  · exact hb

/-! ## Differences, evaluations and Jacobians -/

namespace Difference

variable [Scalar R] [Entry R K] {F : Vec K → Work σ R K (Vec K)}

theorem change_of (hΦ : Work.Straight Φ) (hF : ∀ v, Φ (Vec K) (F v)) (s : Scheme) (x h : Vec R)
    (f0 : Vec K) : Φ (Vec K) (change F s x h f0) := by
  cases s with
  | forward => exact hΦ.bind (hF _) fun _ => hΦ.ofFault _
  | central => exact hΦ.bind (hF _) fun _ => hΦ.bind (hF _) fun _ => hΦ.ofFault _
  | complexStep => exact hΦ.bind (hF _) fun _ => hΦ.pure _

theorem columns_of (hΦ : Work.Straight Φ) (hF : ∀ v, Φ (Vec K) (F v)) (s : Scheme) (x : Vec R)
    (f0 : Vec K) (places : List (R × Nat)) : Φ (List (Vec K)) (columns F s x f0 places) := by
  induction places with
  | nil => exact hΦ.pure _
  | cons place rest ih =>
    exact hΦ.bind (change_of hΦ hF s x _ f0) fun _ => hΦ.bind (hΦ.ofFault _) fun _ =>
      hΦ.bind ih fun _ => hΦ.pure _

theorem dense_of (hΦ : Work.Straight Φ) (hF : ∀ v, Φ (Vec K) (F v)) (s : Scheme) (x : Vec R)
    (f0 : Vec K) : Φ (Grid K) (dense F s x f0) :=
  hΦ.bind (columns_of hΦ hF s x f0 _) fun _ => hΦ.pure _

theorem groupChanges_of (hΦ : Work.Straight Φ) (hF : ∀ v, Φ (Vec K) (F v)) (s : Scheme)
    (x : Vec R) (f0 : Vec K) (groups : List (List Nat)) :
    Φ (List (List Nat × Vec K)) (groupChanges F s x f0 groups) := by
  induction groups with
  | nil => exact hΦ.pure _
  | cons cols rest ih =>
    exact hΦ.bind (change_of hΦ hF s x _ f0) fun _ => hΦ.bind ih fun _ => hΦ.pure _

theorem sparse_of (hΦ : Work.Straight Φ) (hF : ∀ v, Φ (Vec K) (F v)) (s : Scheme) (x : Vec R)
    (f0 : Vec K) (pattern : Grid Bool) :
    Φ (Grid (Option K)) (sparse F s x f0 pattern) := by
  refine hΦ.guard (hΦ.throw _) (hΦ.bind (groupChanges_of hΦ hF s x f0 _) fun changes => ?_)
  split
  · exact hΦ.bind (hΦ.throw _) fun _ => hΦ.pure _
  · exact hΦ.pure _

end Difference

section Problems

variable [Scalar R] [Entry R K] {p : Problem σ R K}

theorem Problem.evaluate_of (hΦ : Work.Hereditary Φ)
    (hcount : Φ PUnit (modify fun w => { w with evaluations := w.evaluations + 1 }))
    (hshape : ∀ t : Tensor K, Φ PUnit
      (modify fun w => { w with residualShape := some (w.residualShape.getD t.shape) }))
    (hreturning : ∀ f, p.residual = .returning f → ∀ x, Φ (Tensor K) (Workspace.call f x))
    (hfilling : ∀ f, p.residual = .filling f → ∀ x, Φ (Tensor K) (Workspace.call f x)) (u : Vec K) :
    Φ (Vec K) (p.evaluate u) := by
  refine hΦ.bind (hΦ.ofFault _) fun x => hΦ.bind hcount fun _ => ?_
  dsimp only
  split
  next f hf =>
    exact hΦ.bind (hΦ.mapError _ (hreturning f hf x)) fun t =>
      hΦ.bind (hshape t) fun _ => hΦ.pure _
  next f hf =>
    exact hΦ.bind (hΦ.mapError _ (hfilling f hf _)) fun t =>
      hΦ.bind (hshape t) fun _ => hΦ.pure _

theorem Problem.rawJacobian_of (hΦ : Work.Straight Φ) (hF : ∀ v, Φ (Vec K) (p.evaluate v))
    (hcall : ∀ jac ∈ p.jacobian, ∀ x, Φ (JacobianValue K) (Workspace.call jac x))
    (s : JacobianSettings R) (u : Vec K) (fu : Option (Vec K)) :
    Φ (Matrix R K) (p.rawJacobian s u fu) := by
  have hanalytic : Φ (Matrix R K) (p.analyticJacobian u) := by
    refine hΦ.bind (hΦ.ofFault _) fun x => ?_
    split
    next jac hjac => exact hΦ.bind (hcall jac hjac x) fun _ => hΦ.pure _
    next => exact hΦ.throw _
  unfold Problem.rawJacobian
  split
  · exact hanalytic
  · dsimp only
    split
    -- The residual is the one passed on, or it is evaluated first.
    case' h_1 => refine hΦ.bind (hΦ.pure _) fun f0 => ?_
    case' h_2 => refine hΦ.bind (hF _) fun f0 => ?_
    all_goals
      split
      · exact hΦ.pure _
      · split
        · exact hΦ.bind (Difference.sparse_of hΦ hF _ _ _ _) fun _ => hΦ.pure _
        · exact hΦ.bind (Difference.dense_of hΦ hF _ _ _) fun _ => hΦ.pure _

end Problems

/-! ## Line searches -/

namespace LineSearch

/-- A probe from a given memo, with the memo that it leaves. -/
def Probe.from {α : Type} (memo : Memo R) (a : Probe σ R K α) : Work σ R K (α × Memo R) :=
  Action.ofFun fun w =>
    match a.eval (w, memo) with
    | (.ok x, w, memo) => (.ok (x, memo), w)
    | (.error e, w, _) => (.error e, w)

theorem Probe.from_bind {α β : Type} (a : Probe σ R K α) (f : α → Probe σ R K β) (memo : Memo R) :
    (a >>= f).from memo = a.from memo >>= fun x => (f x.1).from x.2 := by
  refine Action.ext fun w => ?_
  simp only [Probe.from, eval_ofFun, eval_bind]
  rcases a.eval (w, memo) with ⟨_ | x, w', memo'⟩ <;> rfl

/-- A probe from a given memo, without the memo that it leaves. -/
theorem Probe.discard {α : Type} (a : Probe σ R K α) (memo : Memo R) :
    (Action.ofFun fun w =>
        let (r, w, _) := a.eval (w, memo)
        (r, w) : Work σ R K α) = a.from memo >>= fun x => pure x.1 := by
  refine Action.ext fun w => ?_
  simp only [Probe.from, eval_ofFun, eval_bind]
  rcases a.eval (w, memo) with ⟨_ | x, w', memo'⟩ <;> rfl

/-- A property of actions on the workspace as one of probes. -/
def Probe.Of (Φ : ∀ α : Type, Work σ R K α → Prop) (α : Type) (a : Probe σ R K α) : Prop :=
  ∀ memo, Φ (α × Memo R) (a.from memo)

theorem Probe.sequential (hΦ : Work.Straight Φ) : Sequential (Probe.Of Φ) where
  pure x memo := hΦ.pure (x, memo)
  bind ha hf memo := by
    rw [Probe.from_bind]
    exact hΦ.bind (ha memo) fun x => hf x.1 x.2

theorem Probe.ofWork_of (hΦ : Work.Straight Φ) {α : Type} {a : Work σ R K α} (ha : Φ α a) :
    Probe.Of Φ α (Probe.ofWork a) := by
  intro memo
  have h : (Probe.ofWork a).from memo = a >>= fun x => pure (x, memo) := by
    refine Action.ext fun w => ?_
    simp only [Probe.from, Probe.ofWork, eval_ofFun, eval_bind, eval_within]
    rcases a.eval w with ⟨_ | x, w'⟩ <;> rfl
  rw [h]
  exact hΦ.bind ha fun x => hΦ.pure _

variable [Scalar R] [Entry R K] {F : Vec K → Work σ R K (Vec K)}

theorem meritAt_of (hΦ : Work.Straight Φ) (hF : ∀ v, Φ (Vec K) (F v)) (p : SearchPoint K)
    (s : R) : Φ R (meritAt F p s) :=
  hΦ.bind (hΦ.ofFault _) fun _ => hΦ.bind (hF _) fun _ => hΦ.pure _

theorem phi_of (hΦ : Work.Straight Φ) (hF : ∀ v, Φ (Vec K) (F v)) (p : SearchPoint K) (s : R) :
    Probe.Of Φ R (phi F p s) := by
  intro memo
  by_cases hsame : Scalar.same memo.step s
  · have h : (phi F p s).from memo = pure (memo.merit, memo) := by
      refine Action.ext fun w => ?_
      simp [Probe.from, phi, eval_bind, hsame]
    rw [h]
    exact hΦ.pure _
  · have h : (phi F p s).from memo = do
        let m ← meritAt F p s
        let m := if Scalar.isFinite m then m else Scalar.infinity
        return (m, ⟨s, m⟩) := by
      refine Action.ext fun w => ?_
      simp only [Probe.from, phi, Probe.ofWork, eval_ofFun, eval_bind, eval_get, hsame,
        Bool.false_eq_true, if_false, eval_within]
      rcases (meritAt F p s).eval w with ⟨_ | m, w'⟩ <;> rfl
    rw [h]
    exact hΦ.bind (meritAt_of hΦ hF p s) fun _ => hΦ.pure _

theorem slope_of (hΦ : Work.Straight Φ) (hF : ∀ v, Φ (Vec K) (F v)) (p : SearchPoint K)
    (size difference s : R) : Probe.Of Φ R (slope F p size difference s) :=
  (Probe.sequential hΦ).bind (Probe.ofWork_of hΦ (meritAt_of hΦ hF p _)) fun _ =>
    (Probe.sequential hΦ).bind (phi_of hΦ hF p s) fun _ => (Probe.sequential hΦ).pure _

theorem searchBuiltIn_of (hΦ : Work.Straight Φ) (hF : ∀ v, Φ (Vec K) (F v))
    (search : LineSearch σ R K) (p : SearchPoint K) : Φ R (searchBuiltIn search F p) := by
  have hbuiltIn : ∀ merit size, Probe.Of Φ (Option R) (builtIn search F p merit size) := by
    intro merit size
    unfold builtIn
    split
    · exact Wolfe.search_of (Probe.sequential hΦ) (phi_of hΦ hF p) (slope_of hΦ hF p _ _) _ _
    · exact Armijo.search_of (Probe.sequential hΦ) (phi_of hΦ hF p) _ _ _
  unfold searchBuiltIn
  dsimp only
  split
  · exact hΦ.pure _
  · rw [Probe.discard]
    refine hΦ.bind (hΦ.bind (hbuiltIn _ _ _) fun _ => hΦ.pure _) fun found => ?_
    · cases found with
      | some a => exact hΦ.pure _
      | none => exact hΦ.bind (hΦ.warn _) fun _ => hΦ.pure _

omit [Scalar R] [Entry R K] in
theorem dialogue_of (hΦ : Work.Hereditary Φ) (hF : ∀ v, Φ (Vec K) (F v)) (d : Dialogue R K) :
    Φ R (d.run F) := by
  induction d with
  | answer a => exact hΦ.pure a
  | raise e => exact hΦ.throw e
  | evaluate u next ih => exact hΦ.bind (hΦ.attempt (hF u)) fun r => ih r

theorem search_of (hΦ : Work.Hereditary Φ) (hF : ∀ v, Φ (Vec K) (F v)) (s : LineSearch σ R K)
    (hcall : ∀ f, s.method = .custom f → ∀ x,
      Φ (Dialogue R K) (Workspace.call (fun p w => ((.ok (f p w).1), (f p w).2)) x))
    (p : SearchPoint K) : Φ R (s.search F p) := by
  unfold search
  split
  next => exact hΦ.pure _
  next f hf =>
    refine hΦ.bind (hcall f hf p) fun dialogue =>
      hΦ.bind (hΦ.mapError _ (dialogue_of hΦ hF dialogue)) fun a => ?_
    split
    · exact hΦ.pure _
    · exact hΦ.throw _
  next => exact searchBuiltIn_of hΦ.toStraight hF s p

end LineSearch

/-! ## What they leave alone -/

theorem Work.keeps_hereditary {T : Type} {π : Workspace σ R K → T}
    (hπ : ∀ w warnings, π { w with warnings } = π w) :
    Work.Hereditary fun α (a : Work σ R K α) => Keeps π a where
  pure := keeps_pure
  bind := Keeps.bind
  throw := keeps_throw
  attempt := Keeps.attempt
  mapError _ := Keeps.mapError
  warn _ w := hπ w _

section Frames

variable [Scalar R] [Entry R K]

/-- The making of a Jacobian leaves the linear system alone. -/
theorem Problem.jacobianAt_keeps (p : Problem σ R K) (s : JacobianSettings R) (u : Vec K)
    (fu : Option (Vec K)) : Keeps Workspace.system (p.jacobianAt s u fu) := by
  have hraw : Keeps Workspace.system (p.rawJacobian s u fu) :=
    rawJacobian_of (Work.keeps_hereditary fun _ _ => rfl).toStraight
      (fun v w => congrArg Prod.snd (p.evaluate_keeps v w)) (fun _ _ _ _ => rfl) s u fu
  refine hraw.mapError.bind fun J => ?_
  split
  · exact keeps_throw _
  · exact Keeps.bind (fun _ => rfl) fun _ => keeps_pure _

end Frames

end RootFinding
