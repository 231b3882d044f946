import RootFinding.Proofs.LevenbergMarquardt
import RootFinding.Proofs.Newton

/-!
# What steps inherit from their routines

All strategies put their steps together from the same routines on the workspace and from changes of
the run that leave the workspace alone. What holds of these from every state, and is inherited by
sequences, holds of every step. Only the Jacobian and the line search of a Newton step are looked at
where the step begins them, since a property may hold of them there and not elsewhere.

* `Run.Passage π Φ`: actions that leave the part `π` of a run alone have the property `Φ` in every
  state, and sequences inherit it. `Setup.Passes c Φ`: the routines behind a step have it.
* `PseudoTransient.step_of`, `TrustRegion.step_of`, `LevenbergMarquardt.step_of`,
  `SpectralResidual.step_of`, `Newton.step_of`: then so do the steps.
-/

namespace RootFinding

open Action

variable {σ R K X T α β : Type}

/-- A property of actions on a run, each from a state. An action has it that leaves the part `π` of
the run alone there, and so has a sequence whose parts have it where they begin. -/
structure Run.Passage (π : Run σ R K X → T)
    (Φ : ∀ α : Type, Stepping σ R K X α → Run σ R K X → Prop) : Prop where
  idle {α : Type} {a : Stepping σ R K X α} {r : Run σ R K X} : π (a.eval r).2 = π r → Φ α a r
  bind {α β : Type} {a : Stepping σ R K X α} {f : α → Stepping σ R K X β} {r : Run σ R K X} :
    Φ α a r → (∀ x t, a.eval r = (.ok x, t) → Φ β (f x) t) → Φ β (a >>= f) r

namespace Run.Passage

variable {π : Run σ R K X → T} {Φ : ∀ α : Type, Stepping σ R K X α → Run σ R K X → Prop}
  {a : Stepping σ R K X α} {f : α → Stepping σ R K X β} {r : Run σ R K X}

theorem keeps (hΦ : Passage π Φ) (ha : Keeps π a) (r : Run σ R K X) : Φ α a r :=
  hΦ.idle (ha r)

theorem pure (hΦ : Passage π Φ) (x : α) (r : Run σ R K X) : Φ α (pure x) r :=
  hΦ.idle rfl

/-- A sequence whose second action has the property in every state. -/
theorem seq (hΦ : Passage π Φ) (ha : Φ α a r) (hf : ∀ x t, Φ β (f x) t) : Φ β (a >>= f) r :=
  hΦ.bind ha fun x t _ => hf x t

theorem get_bind (hΦ : Passage π Φ) {f : Run σ R K X → Stepping σ R K X β} (hf : Φ β (f r) r) :
    Φ β (get >>= f) r := by
  refine hΦ.bind (hΦ.idle rfl) fun x t hx => ?_
  cases hx
  exact hf

/-- Past an action that leaves the part alone. -/
theorem past (hΦ : Passage π Φ) (ha : Keeps π a) (hf : ∀ x t, Φ β (f x) t) : Φ β (a >>= f) r :=
  hΦ.seq (hΦ.keeps ha r) hf

theorem ofFault (hΦ : Passage π Φ) (x : Except Fault α) {f : α → Stepping σ R K X β}
    (hf : ∀ x, Φ β (f x) r) : Φ β (Action.ofFault x >>= f) r := by
  refine hΦ.bind (hΦ.keeps (keeps_ofFault x) r) fun y t hy => ?_
  cases x with
  | ok x =>
    cases hy
    exact hf _
  | error e => cases hy

/-- Past an action that is only taken under a condition. -/
theorem guard (hΦ : Passage π Φ) {p : Prop} [Decidable p] {a : Stepping σ R K X PUnit}
    {b : Stepping σ R K X β} (ha : p → Φ PUnit a r) (hb : ∀ t, Φ β b t) :
    Φ β (if p then a >>= fun _ => b else b) r := by
  split
  next hp => exact hΦ.seq (ha hp) fun _ => hb
  next => exact hb r

end Run.Passage

variable [Scalar R] [Entry R K]

/-- The routines behind a step have a property in every state. -/
structure Setup.Passes (c : Setup σ R K)
    (Φ : ∀ α : Type, Stepping σ R K X α → Run σ R K X → Prop) : Prop where
  evaluate (u : Vec K) (r : Run σ R K X) : Φ (Vec K) (Run.evaluate c u) r
  factorize (A : Matrix R K) (r : Run σ R K X) :
    Φ Unit (Run.onWork (LinearSystem.factorize c.backend A)) r
  solve (b : Vec K) (r : Run σ R K X) :
    Φ (Vec K) (Run.onWork (LinearSystem.solve c.backend c.problem.evaluate b)) r
  apply (J : Matrix R K) (v : Vec K) (r : Run σ R K X) :
    Φ (Vec K) (Run.onWork (J.apply c.problem.evaluate v)) r

theorem Run.check_work : Keeps Run.work (check : Stepping σ R K X Bool) :=
  keeps_of_ends fun r => (check_frame r).mono
    (fun _ _ ht => by obtain ⟨_, _, _, rfl⟩ := ht; rfl)
    (fun _ _ ht => by obtain ⟨_, rfl⟩ := ht; rfl)

variable {c : Setup σ R K}

section PseudoTransient

open PseudoTransient

variable {r : Run σ R K (State R K)}
  {Φ : ∀ α : Type, Stepping σ R K (State R K) α → Run σ R K (State R K) → Prop}

theorem PseudoTransient.adapt_work : Keeps Run.work (adapt : Stepping σ R K (State R K) Unit) :=
  keeps_get.bind fun _ => (keeps_ofFault _).bind fun _ => Keeps.bind (fun _ => rfl) fun _ =>
    Keeps.bind (fun _ => rfl) fun _ => Keeps.guard (fun _ => rfl) (fun _ => rfl)

theorem PseudoTransient.step_of (hΦ : Run.Passage Run.work Φ) (hc : c.Passes Φ)
    (hjacobian : Φ _ (Run.onWork (c.problem.jacobianAt r.ext.jacobians r.u (some r.fu))) r) :
    Φ Unit (step c) r := by
  have hdirection : Φ (Vec K) (direction c) r :=
    hΦ.get_bind <| hΦ.seq hjacobian fun J t => hΦ.ofFault _ fun _ => hΦ.ofFault _ fun A =>
      hΦ.seq (hc.factorize A t) fun _ => hc.solve _
  refine hΦ.seq hdirection fun du t => hΦ.get_bind <| hΦ.past (fun _ => rfl) fun _ t =>
    hΦ.seq (hc.evaluate _ t) fun fu t => hΦ.past (fun _ => rfl) fun _ t =>
      hΦ.past Run.check_work fun converged t => ?_
  split
  · exact hΦ.pure _ t
  · exact hΦ.keeps adapt_work t

end PseudoTransient

section TrustRegion

open TrustRegion

variable {r : Run σ R K (State R K)}
  {Φ : ∀ α : Type, Stepping σ R K (State R K) α → Run σ R K (State R K) → Prop}

theorem TrustRegion.conclude_work (x : Trial R K) :
    Keeps Run.work (conclude x : Stepping σ R K (State R K) Unit) := by
  refine keeps_get.bind fun _ => Keeps.bind (fun _ => rfl) fun accepted =>
    Keeps.bind (fun _ => rfl) fun _ => ?_
  split
  · exact Keeps.bind (fun _ => rfl) fun _ => Keeps.bind (fun _ => rfl) fun _ _ => rfl
  · exact keeps_get.bind fun _ _ => rfl

theorem TrustRegion.step_of (hΦ : Run.Passage Run.work Φ) (hc : c.Passes Φ)
    (hjacobian : r.ext.renew = true →
      Φ _ (Run.onWork (c.problem.jacobianAt r.ext.jacobians r.u (some r.fu))) r) :
    Φ Unit (step c) r := by
  have hremodel : r.ext.renew = true → Φ Unit (remodel c) r := fun hrenew =>
    hΦ.get_bind <| hΦ.seq (hjacobian hrenew) fun J t => hΦ.seq (hc.factorize J t) fun _ t =>
      hΦ.seq (hc.solve _ t) fun _ t => hΦ.ofFault _ fun _ => hΦ.seq (hc.apply J _ t) fun _ t =>
        hΦ.idle rfl
  have htrial : ∀ t, Φ (Trial R K) (trial c) t := fun t =>
    hΦ.get_bind <| hΦ.ofFault _ fun x => hΦ.ofFault _ fun _ => hΦ.seq (hc.evaluate _ t) fun _ t =>
      hΦ.seq (hc.apply x.2 _ t) fun _ => hΦ.pure _
  have hpropose : Φ (Trial R K) (propose c) r := hΦ.get_bind (hΦ.guard hremodel htrial)
  exact hΦ.seq hpropose fun x t => hΦ.past (conclude_work x) fun _ t =>
    hΦ.past Run.check_work fun _ => hΦ.pure _

end TrustRegion

section LevenbergMarquardt

open LevenbergMarquardt

variable {a : LevenbergMarquardt R} {r : Run σ R K (State R K)}
  {Φ : ∀ α : Type, Stepping σ R K (State R K) α → Run σ R K (State R K) → Prop}

theorem LevenbergMarquardt.settle_work (a : LevenbergMarquardt R) (taken : Bool) :
    Keeps Run.work (a.settle taken : Stepping σ R K (State R K) Unit) := by
  have hadapted : Keeps Run.work (do
      a.adapt
      let _ ← Run.check : Stepping σ R K (State R K) Unit) :=
    Keeps.bind (fun _ => rfl) fun _ => Run.check_work.bind fun _ => keeps_pure _
  unfold settle
  split
  · exact keeps_get.bind fun _ => Keeps.bind (fun _ => rfl) fun _ => hadapted
  · exact hadapted

theorem LevenbergMarquardt.correctedStep_of (hΦ : Run.Passage Run.work Φ) (hc : c.Passes Φ)
    (J : Matrix R K) (v : Vec K) (r : Run σ R K (State R K)) :
    Φ (Option (Vec K)) (a.correctedStep c J v) r := by
  have hcorrection : Φ (Option (Vec K)) (a.correction c J v) r := by
    refine hΦ.get_bind <| hΦ.seq (hc.evaluate _ r) fun ahead t => ?_
    split
    · exact hΦ.pure _ t
    · exact hΦ.ofFault _ fun _ => hΦ.seq (hc.apply J v t) fun _ t => hΦ.ofFault _ fun _ =>
        hΦ.seq (hc.solve _ t) fun _ => hΦ.pure _
  unfold correctedStep
  split
  · exact hΦ.pure _ r
  · refine hΦ.seq hcorrection fun w t => ?_
    cases w with
    | none => exact hΦ.pure _ t
    | some w =>
      dsimp only
      split <;> exact hΦ.pure _ t

theorem LevenbergMarquardt.attempt_of (hΦ : Run.Passage Run.work Φ) (hc : c.Passes Φ)
    (v du : Vec K) (r : Run σ R K (State R K)) : Φ Bool (a.attempt c v du) r := by
  refine hΦ.get_bind <| hΦ.seq (hc.evaluate _ r) fun fu t => hΦ.get_bind <|
    hΦ.ofFault _ fun taken => ?_
  dsimp only
  split
  · exact hΦ.past (fun _ => rfl) fun _ t => hΦ.past (fun _ => rfl) fun _ t =>
      hΦ.past (fun _ => rfl) fun _ => hΦ.pure _
  · exact hΦ.pure _ t

theorem LevenbergMarquardt.step_of (hΦ : Run.Passage Run.work Φ) (hc : c.Passes Φ)
    (hjacobian : r.ext.renew = true →
      Φ _ (Run.onWork (c.problem.jacobianAt r.ext.jacobians r.u (some r.fu))) r) :
    Φ Unit (a.step c) r := by
  have hrenew : r.ext.renew = true → Φ Unit (renewJacobian c) r := fun hrenew =>
    hΦ.get_bind <| hΦ.seq (hjacobian hrenew) fun _ t => hΦ.idle rfl
  have hmodel : Φ (Matrix R K × Matrix R K) (model c) r :=
    hΦ.get_bind <| hΦ.guard hrenew fun t => hΦ.get_bind (hΦ.keeps (keeps_ofFault _) t)
  have hvelocity : ∀ J A t, Φ (Vec K) (velocity c J A) t := fun J A t =>
    hΦ.get_bind <| hΦ.ofFault _ fun _ => hΦ.past (fun _ => rfl) fun _ t =>
      hΦ.seq (hc.factorize _ t) fun _ t => hΦ.seq (hc.solve _ t) fun _ => hΦ.pure _
  have hverdict : ∀ J A t, Φ Bool (a.verdict c J A) t := fun J A t => by
    refine hΦ.seq (hvelocity J A t) fun v t => hΦ.seq (correctedStep_of hΦ hc J v t) fun du t => ?_
    cases du with
    | none => exact hΦ.pure _ t
    | some du => exact attempt_of hΦ hc v du t
  rw [step_eq]
  exact hΦ.seq hmodel fun x t => hΦ.seq (hverdict x.1 x.2 t) fun taken =>
    hΦ.keeps (a.settle_work taken)

end LevenbergMarquardt

section SpectralResidual

open SpectralResidual

variable {a : SpectralResidual σ R K} {r : Run σ R K (State R)}
  {Φ : ∀ α : Type, Stepping σ R K (State R) α → Run σ R K (State R) → Prop}

theorem SpectralResidual.trialAt_of (hΦ : Run.Passage Run.work Φ) (hc : c.Passes Φ) (u : Vec K)
    (r : Run σ R K (State R)) : Φ (Trial R K) (a.trialAt c u) r :=
  hΦ.seq (hc.evaluate u r) fun _ => hΦ.pure _

theorem SpectralResidual.search_of (hΦ : Run.Passage Run.work Φ) (hc : c.Passes Φ)
    (q : Search R K) (fuel : Nat) (ahead behind : R) (x : Trial R K) (r : Run σ R K (State R)) :
    Φ (Trial R K × R) (a.search c q fuel ahead behind x) r := by
  induction fuel generalizing ahead behind x r with
  | zero => exact hΦ.keeps (keeps_get.bind fun _ => keeps_throw _) r
  | succ fuel ih =>
    unfold search
    split
    · exact hΦ.pure _ r
    · refine hΦ.ofFault _ fun nextAhead => hΦ.seq (trialAt_of hΦ hc _ r) fun x t => ?_
      split
      · exact hΦ.pure _ t
      · exact hΦ.ofFault _ fun nextBehind => hΦ.seq (trialAt_of hΦ hc _ t) fun x => ih _ _ x

theorem SpectralResidual.step_of (hΦ : Run.Passage Run.work Φ) (hc : c.Passes Φ)
    (hrule : ∀ rule ∈ a.tolerance, ∀ x, Φ R (Run.onWork (Workspace.call rule x)) r) :
    Φ Unit (a.step c) r := by
  have htolerance : ∀ x, Φ R (a.toleranceAt x) r := fun x => by
    unfold toleranceAt
    split
    next rule hsome => exact hrule rule hsome x
    next => exact hΦ.pure _ r
  exact hΦ.get_bind <| hΦ.seq (htolerance _) fun _ t => hΦ.seq (trialAt_of hΦ hc _ t) fun _ t =>
    hΦ.seq (search_of hΦ hc _ _ _ _ _ t) fun _ t => hΦ.past (fun _ => rfl) fun _ t =>
      hΦ.past (fun _ => rfl) fun _ t => hΦ.past (fun _ => rfl) fun _ t =>
        hΦ.past (fun _ => rfl) fun _ t => hΦ.past Run.check_work fun _ => hΦ.pure _

end SpectralResidual

namespace Newton

variable {a : Newton σ R K} {r s : Run σ R K (State σ R K)} {du : Vec K}
  {Φ : ∀ α : Type, Stepping σ R K (State σ R K) α → Run σ R K (State σ R K) → Prop}

/-- What a step does before its line search: it answers the direction. -/
def aim (a : Newton σ R K) (c : Setup σ R K) : Stepping σ R K (State σ R K) (Vec K) := do
  a.renew c
  a.direction c

/-- What a step does along its direction. -/
def follow (c : Setup σ R K) (du : Vec K) : Stepping σ R K (State σ R K) Unit := do
  let r ← get
  let alpha ← Run.onWork (r.ext.search.search c.problem.evaluate ⟨r.u, r.fu, du⟩)
  advance c du alpha
  let _ ← Run.check

theorem step_eq (a : Newton σ R K) (c : Setup σ R K) : a.step c = a.aim c >>= follow c := by
  simp only [step, aim, bind_assoc]
  rfl

/-- Aiming reaches neither the iterate nor the line search. -/
theorem aim_ends (r : Run σ R K (State σ R K)) :
    (a.aim c).Ends r (fun _ s => s.u = r.u ∧ s.fu = r.fu ∧ s.ext.search = r.ext.search)
      (fun _ _ => True) := by
  rw [aim, ends_bind]
  refine ends_iff.2 ⟨fun _ s hs => ?_, fun _ _ _ => trivial⟩
  have hrenewed := (renew_renewed r).ok hs
  have hrest := Run.eq_of_rest hrenewed.rest
  have hu : s.u = r.u := by rw [hrest]
  have hfu : s.fu = r.fu := by rw [hrest]
  simp only [direction, ends_bind, ends_get, Run.ends_onWork, ends_ofFault]
  exact ⟨fun b _ => ends_true.mono (fun _ _ _ => ⟨hu, hfu, hrenewed.search⟩) (fun _ _ _ => trivial),
    fun _ _ => trivial⟩

/-- A part of the workspace, and the line search of a run. -/
def withSearch (π : Workspace σ R K → T) (r : Run σ R K (State σ R K)) : T × LineSearch σ R K :=
  (π r.work, r.ext.search)

theorem check_withSearch :
    Keeps (withSearch id) (Run.check : Stepping σ R K (State σ R K) Bool) :=
  keeps_of_ends fun r => (Run.check_frame r).mono
    (fun _ _ ht => by obtain ⟨_, _, _, rfl⟩ := ht; rfl)
    (fun _ _ ht => by obtain ⟨_, rfl⟩ := ht; rfl)

theorem step_of (hΦ : Run.Passage (withSearch id) Φ) (hc : c.Passes Φ)
    (hjacobian : NeedsJacobian c r = true →
      Φ _ (Run.onWork (c.problem.jacobianAt r.ext.jacobians r.u (some r.fu))) r)
    (hsearch : ∀ du s, (a.aim c).eval r = (.ok du, s) →
      Φ R (Run.onWork (r.ext.search.search c.problem.evaluate ⟨r.u, r.fu, du⟩)) s) :
    Φ Unit (a.step c) r := by
  have hrenew : Φ Unit (a.renew c) r := by
    refine hΦ.get_bind ?_
    dsimp only
    split
    next hneeded =>
      exact hΦ.seq (hjacobian hneeded) fun J t => hΦ.seq (hc.factorize _ t) fun _ t =>
        hΦ.past (fun _ => rfl) fun _ t => hΦ.idle rfl
    next => exact hΦ.idle rfl
  have hdirection : ∀ t, Φ (Vec K) (a.direction c) t := fun t =>
    hΦ.get_bind <| hΦ.ofFault _ fun _ => hc.solve _ t
  have hadvance : ∀ du alpha t, Φ Unit (advance c du alpha) t := fun du alpha t =>
    hΦ.get_bind <| hΦ.past (fun _ => rfl) fun _ t => hΦ.seq (hc.evaluate _ t) fun _ t =>
      hΦ.past (fun _ => rfl) fun _ t => hΦ.get_bind <| hΦ.ofFault _ fun _ => hΦ.idle rfl
  rw [step_eq]
  refine hΦ.bind (hΦ.seq hrenew fun _ => hdirection) fun du s hs => hΦ.get_bind ?_
  obtain ⟨hu, hfu, hsame⟩ := (aim_ends r).ok hs
  rw [hu, hfu, hsame]
  exact hΦ.seq (hsearch du s hs) fun alpha t => hΦ.seq (hadvance du alpha t) fun _ t =>
    hΦ.past check_withSearch fun _ => hΦ.pure _

end Newton

end RootFinding
