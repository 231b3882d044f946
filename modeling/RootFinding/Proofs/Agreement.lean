import RootFinding.Proofs.LevenbergMarquardt

/-!
# Agreement of two runs

A calculus for two actions that end in the same way, each from a state of its own.

* `Action.Alike ρ a b s t`: from `s` and `t` the actions give the same answer or the same error, and
  leave states that `ρ` relates.
* `Action.Respects ρ a`: from states that `ρ` relates the action ends alike.
* `Run.Overlooks ρ`: `ρ` relates runs that differ in their checks and their report only, and it
  survives every change of the other parts and every notice that both runs print.
* `Algorithm.step_parts`: a step of any algorithm is an approach, the check and an aftermath.
  `approach_respects` and `aftermath_respects`: the first and the last of them overlook the checks
  and the report.
-/

namespace RootFinding

namespace Action

variable {ε δ S T U V α β : Type}

/-- Two actions end in the same way, each from its own state: with the same answer or error, and in
states that `ρ` relates. -/
def Alike (ρ : S → T → Prop) (a : Action ε S α) (b : Action ε T α) (s : S) (t : T) : Prop :=
  (a.eval s).1 = (b.eval t).1 ∧ ρ (a.eval s).2 (b.eval t).2

/-- An action ends alike from states that `ρ` relates. -/
def Respects (ρ : S → S → Prop) (a : Action ε S α) : Prop := ∀ s t, ρ s t → Alike ρ a a s t

section Sequences

variable {a : Action ε S α} {f : α → Action ε S β} {s s' : S}

theorem eval_bind_ok {y : β} :
    (a >>= f).eval s = (.ok y, s') ↔ ∃ x t, a.eval s = (.ok x, t) ∧ (f x).eval t = (.ok y, s') := by
  rw [eval_bind]
  rcases a.eval s with ⟨_ | x, t⟩ <;> simp

theorem eval_bind_error {e : ε} :
    (a >>= f).eval s = (.error e, s') ↔
      a.eval s = (.error e, s') ∨
        ∃ x t, a.eval s = (.ok x, t) ∧ (f x).eval t = (.error e, s') := by
  rw [eval_bind]
  rcases a.eval s with ⟨_ | x, t⟩ <;> simp

end Sequences

section Rules

variable {ρ ρ' : S → T → Prop} {a : Action ε S α} {b : Action ε T α} {s s' : S} {t t' : T}

theorem alike_of_eval {x : Except ε α} (hs : a.eval s = (x, s')) (ht : b.eval t = (x, t'))
    (h : ρ s' t') : Alike ρ a b s t := by
  unfold Alike
  rw [hs, ht]
  exact ⟨rfl, h⟩

theorem Alike.eval (h : Alike ρ a b s t) {x : Except ε α} (hs : a.eval s = (x, s')) :
    ∃ t', b.eval t = (x, t') ∧ ρ s' t' := by
  unfold Alike at h
  rw [hs] at h
  exact ⟨(b.eval t).2, Prod.ext h.1.symm rfl, h.2⟩

theorem Alike.mono (h : Alike ρ a b s t) (hρ : ∀ s' t', ρ s' t' → ρ' s' t') :
    Alike ρ' a b s t :=
  ⟨h.1, hρ _ _ h.2⟩

theorem alike_pure (h : ρ s t) (x : α) :
    Alike ρ (pure x : Action ε S α) (pure x : Action ε T α) s t :=
  ⟨rfl, h⟩

theorem alike_throw (h : ρ s t) (e : ε) :
    Alike ρ (throw e : Action ε S α) (throw e : Action ε T α) s t :=
  ⟨rfl, h⟩

theorem alike_modify {f : S → S} {g : T → T} (h : ρ (f s) (g t)) :
    Alike ρ (modify f : Action ε S PUnit) (modify g : Action ε T PUnit) s t :=
  ⟨rfl, h⟩

@[simp] theorem alike_get_bind {f : S → Action ε S β} {g : T → Action ε T β} :
    Alike ρ (get >>= f) (get >>= g) s t ↔ Alike ρ (f s) (g t) s t := by
  simp only [Alike, eval_bind, eval_get]

/-- Through two actions that end alike, with what they have answered and left. -/
theorem Alike.bind_eval {f : α → Action ε S β} {g : α → Action ε T β} (h : Alike ρ' a b s t)
    (hf : ∀ x s' t', a.eval s = (.ok x, s') → b.eval t = (.ok x, t') → ρ' s' t' →
      Alike ρ (f x) (g x) s' t')
    (hE : ∀ s' t', ρ' s' t' → ρ s' t') : Alike ρ (a >>= f) (b >>= g) s t := by
  rcases ha : a.eval s with ⟨_ | x, s'⟩
  · obtain ⟨t', hb, ht⟩ := h.eval ha
    simp only [Alike, eval_bind, ha, hb]
    exact ⟨trivial, hE _ _ ht⟩
  · obtain ⟨t', hb, ht⟩ := h.eval ha
    have := hf x s' t' ha hb ht
    simpa only [Alike, eval_bind, ha, hb] using this

theorem Alike.bind {f : α → Action ε S β} {g : α → Action ε T β} (h : Alike ρ' a b s t)
    (hf : ∀ x s' t', ρ' s' t' → Alike ρ (f x) (g x) s' t')
    (hE : ∀ s' t', ρ' s' t' → ρ s' t') : Alike ρ (a >>= f) (b >>= g) s t :=
  h.bind_eval (fun x s' t' _ _ => hf x s' t') hE

theorem Alike.mapError {f : ε → δ} (h : Alike ρ a b s t) :
    Alike ρ (a.mapError f) (b.mapError f) s t :=
  ⟨congrArg (Except.mapError f) h.1, h.2⟩

theorem Alike.attempt (h : Alike ρ a b s t) :
    Alike ρ (Action.attempt a : Action δ S _) (Action.attempt b : Action δ T _) s t :=
  ⟨congrArg Except.ok h.1, h.2⟩

theorem Alike.within {view : U → S} {put : S → U → U} {view' : V → T} {put' : T → V → V}
    {ρ : U → V → Prop} {u : U} {v : V} (h : Alike ρ' a b (view u) (view' v))
    (hput : ∀ s' t', ρ' s' t' → ρ (put s' u) (put' t' v)) :
    Alike ρ (a.within view put) (b.within view' put') u v :=
  ⟨h.1, hput _ _ h.2⟩

end Rules

section Closures

variable {ρ : S → S → Prop} {a : Action ε S α}

theorem respects_pure (x : α) : Respects ρ (pure x : Action ε S α) := fun _ _ h => alike_pure h x

theorem respects_throw (e : ε) : Respects ρ (throw e : Action ε S α) := fun _ _ h =>
  alike_throw h e

theorem respects_ofFault {R K : Type} (r : Except Fault α) :
    Respects ρ (ofFault r : Action (Thrown R K) S α) := by
  cases r with
  | ok x => exact respects_pure x
  | error f => exact respects_throw _

theorem Respects.bind {f : α → Action ε S β} (h : Respects ρ a) (hf : ∀ x, Respects ρ (f x)) :
    Respects ρ (a >>= f) :=
  fun s t hst => (h s t hst).bind hf (fun _ _ h => h)

/-- Past an action that is only taken under a condition. -/
theorem Respects.guard {p : Prop} [Decidable p] {a : Action ε S PUnit} {b : Action ε S β}
    (ha : Respects ρ a) (hb : Respects ρ b) :
    Respects ρ (if p then a >>= fun _ => b else b) := by
  split
  · exact ha.bind fun _ => hb
  · exact hb

end Closures

end Action

open Action

variable {σ R K X α : Type}

namespace Run

/-- The run with other checks and another report. -/
def aside (checker : Checker R K) (styles : PrintStyles) (trace : List (TraceEntry R))
    (printed : String) (r : Run σ R K X) : Run σ R K X :=
  { r with checker, styles, trace, printed }

/-- A change of a run that neither reads nor writes the checks and the report. -/
def Blind (f : Run σ R K X → Run σ R K X) : Prop :=
  ∀ checker styles trace printed r,
    f (r.aside checker styles trace printed) = (f r).aside checker styles trace printed

variable [Scalar R]

/-- `ρ` relates runs that differ in their checks and their report only, and it survives every change
that is blind to these and every notice that both runs print. -/
structure Overlooks (ρ : Run σ R K X → Run σ R K X → Prop) : Prop where
  eq : ∀ {r t}, ρ r t → ∃ checker styles trace printed, t = r.aside checker styles trace printed
  blind : ∀ {f r t}, Blind f → ρ r t → ρ (f r) (f t)
  printing : ∀ {r t} text, ρ r t → ρ (r.printing "notice" text) (t.printing "notice" text)

namespace Overlooks

variable {ρ : Run σ R K X → Run σ R K X → Prop}

theorem modify (h : Overlooks ρ) {f : Run σ R K X → Run σ R K X} (hf : Blind f) :
    Respects ρ (modify f : Stepping σ R K X PUnit) :=
  fun _ _ hρ => alike_modify (h.blind hf hρ)

theorem update (h : Overlooks ρ) (f : X → X) :
    Respects ρ (Run.update f : Stepping σ R K X Unit) :=
  h.modify fun _ _ _ _ _ => rfl

theorem moveTo (h : Overlooks ρ) (u fu : Vec K) :
    Respects ρ (Run.moveTo u fu : Stepping σ R K X Unit) :=
  h.modify fun _ _ _ _ _ => rfl

theorem notice (h : Overlooks ρ) (text : String) :
    Respects ρ (Run.notice text : Stepping σ R K X Unit) :=
  fun _ _ hρ => alike_modify (h.printing text hρ)

theorem onWork (h : Overlooks ρ) (a : Work σ R K α) :
    Respects ρ (Run.onWork a : Stepping σ R K X α) := by
  intro r t hρ
  have hwork : r.work = t.work := by
    obtain ⟨_, _, _, _, rfl⟩ := h.eq hρ
    rfl
  refine ⟨?_, ?_⟩
  · simp only [Run.onWork, eval_within, hwork]
  · simp only [Run.onWork, eval_within, hwork]
    exact h.blind (f := fun r => { r with work := (a.eval t.work).2 }) (fun _ _ _ _ _ => rfl) hρ

theorem onExt (h : Overlooks ρ) (a : Action (Thrown R K) X α) :
    Respects ρ (Run.onExt a : Stepping σ R K X α) := by
  intro r t hρ
  have hext : r.ext = t.ext := by
    obtain ⟨_, _, _, _, rfl⟩ := h.eq hρ
    rfl
  refine ⟨?_, ?_⟩
  · simp only [Run.onExt, eval_within, hext]
  · simp only [Run.onExt, eval_within, hext]
    exact h.blind (f := fun r => { r with ext := (a.eval t.ext).2 }) (fun _ _ _ _ _ => rfl) hρ

theorem evaluate [Entry R K] (h : Overlooks ρ) (c : Setup σ R K) (u : Vec K) :
    Respects ρ (Run.evaluate c u : Stepping σ R K X (Vec K)) :=
  h.onWork _

/-- An action that reads the run, but not its checks and its report. -/
theorem get_bind (h : Overlooks ρ) {f : Run σ R K X → Stepping σ R K X α}
    (hf : ∀ checker styles trace printed r, f (r.aside checker styles trace printed) = f r)
    (hρ : ∀ r, Respects ρ (f r)) : Respects ρ (get >>= f) := by
  intro r t hrt
  obtain ⟨k, styles, trace, printed, rfl⟩ := h.eq hrt
  rw [alike_get_bind, hf]
  exact hρ r _ _ hrt

end Overlooks

end Run

/-! ## Strategies

What a step does before its check and after it. -/

variable [Scalar R] [Entry R K] {c : Setup σ R K}

namespace Newton

/-- A step up to its check. -/
def approach (a : Newton σ R K) (c : Setup σ R K) : Stepping σ R K (State σ R K) Unit := do
  a.renew c
  let du ← a.direction c
  let r ← get
  let alpha ← Run.onWork (r.ext.search.search c.problem.evaluate ⟨r.u, r.fu, du⟩)
  advance c du alpha

theorem step_parts (a : Newton σ R K) (c : Setup σ R K) :
    a.step c = a.approach c >>= fun _ => Run.check >>= fun _ => pure () := by
  simp only [step, approach, bind_assoc]

variable {ρ : Run σ R K (State σ R K) → Run σ R K (State σ R K) → Prop}

theorem approach_respects (a : Newton σ R K) (h : Run.Overlooks ρ) :
    Respects ρ (a.approach c) := by
  have hrenew : Respects ρ (a.renew c) := by
    refine h.get_bind (fun _ _ _ _ _ => rfl) fun r => ?_
    dsimp only
    split
    · exact (h.onWork _).bind fun _ => (h.onWork _).bind fun _ => (h.update _).bind fun _ =>
        h.update _
    · exact h.update _
  have hdirection : Respects ρ (a.direction c) :=
    h.get_bind (fun _ _ _ _ _ => rfl) fun _ => (respects_ofFault _).bind fun _ => h.onWork _
  have hadvance : ∀ du alpha, Respects ρ (advance c du alpha) := by
    intro du alpha
    refine h.get_bind (fun _ _ _ _ _ => rfl) fun r => ?_
    refine (h.modify fun _ _ _ _ _ => rfl).bind fun _ => (h.evaluate c _).bind fun fu => ?_
    refine (h.moveTo _ _).bind fun _ => h.get_bind (fun _ _ _ _ _ => rfl) fun _ => ?_
    exact (respects_ofFault _).bind fun _ => h.update _
  refine hrenew.bind fun _ => hdirection.bind fun du => ?_
  exact h.get_bind (fun _ _ _ _ _ => rfl) fun _ => (h.onWork _).bind fun alpha =>
    hadvance du alpha

end Newton

namespace PseudoTransient

/-- A step up to its check. -/
def approach (c : Setup σ R K) : Stepping σ R K (State R K) Unit := do
  let du ← direction c
  let before := (← get).u
  let u := before - du
  modify fun r => { r with previous := before, du, alpha := r.ext.alpha }
  let fu ← Run.evaluate c u
  Run.moveTo u fu

/-- What follows the check. -/
def aftermath (converged : Bool) : Stepping σ R K (State R K) Unit :=
  if converged then return else adapt

theorem step_parts (c : Setup σ R K) :
    (step c : Stepping σ R K (State R K) Unit) =
      approach c >>= fun _ => Run.check >>= fun b => aftermath b := by
  simp only [step, approach, aftermath, bind_assoc]

variable {ρ : Run σ R K (State R K) → Run σ R K (State R K) → Prop}

theorem approach_respects (h : Run.Overlooks ρ) : Respects ρ (approach c) := by
  have hdirection : Respects ρ (direction c) :=
    h.get_bind (fun _ _ _ _ _ => rfl) fun _ => (h.onWork _).bind fun _ =>
      (respects_ofFault _).bind fun _ => (respects_ofFault _).bind fun _ =>
        (h.onWork _).bind fun _ => h.onWork _
  refine hdirection.bind fun du => h.get_bind (fun _ _ _ _ _ => rfl) fun r => ?_
  exact (h.modify fun _ _ _ _ _ => rfl).bind fun _ => (h.evaluate c _).bind fun _ => h.moveTo _ _

theorem aftermath_respects (h : Run.Overlooks ρ) (converged : Bool) :
    Respects ρ (aftermath converged) := by
  unfold aftermath
  split
  · exact respects_pure _
  · refine h.get_bind (fun _ _ _ _ _ => rfl) fun r => (respects_ofFault _).bind fun error =>
      (h.update _).bind fun _ => (h.onExt _).bind fun next => ?_
    dsimp only
    split
    · exact (h.notice _).bind fun _ => h.update _
    · exact h.update _

end PseudoTransient

namespace TrustRegion

/-- A step up to its check. -/
def approach (c : Setup σ R K) : Stepping σ R K (State R K) Unit := do
  conclude (← propose c)

theorem step_parts (c : Setup σ R K) :
    (step c : Stepping σ R K (State R K) Unit) =
      approach c >>= fun _ => Run.check >>= fun _ => pure () := by
  simp only [step, approach, bind_assoc]

variable {ρ : Run σ R K (State R K) → Run σ R K (State R K) → Prop}

theorem approach_respects (h : Run.Overlooks ρ) : Respects ρ (approach c) := by
  have hremodel : Respects ρ (remodel c) :=
    h.get_bind (fun _ _ _ _ _ => rfl) fun _ => (h.onWork _).bind fun _ =>
      (h.onWork _).bind fun _ => (h.onWork _).bind fun _ => (respects_ofFault _).bind fun _ =>
        (h.onWork _).bind fun _ => h.update _
  have htrial : Respects ρ (trial c) :=
    h.get_bind (fun _ _ _ _ _ => rfl) fun _ => (respects_ofFault _).bind fun _ =>
      (respects_ofFault _).bind fun _ => (h.evaluate c _).bind fun _ =>
        (h.onWork _).bind fun _ => respects_pure _
  have hpropose : Respects ρ (propose c) :=
    h.get_bind (fun _ _ _ _ _ => rfl) fun _ => hremodel.guard htrial
  refine hpropose.bind fun x => h.get_bind (fun _ _ _ _ _ => rfl) fun r => ?_
  refine (h.onExt _).bind fun accepted => (h.modify fun _ _ _ _ _ => rfl).bind fun _ => ?_
  split
  · exact (h.modify fun _ _ _ _ _ => rfl).bind fun _ => (h.moveTo _ _).bind fun _ => h.update _
  · exact h.get_bind (fun _ _ _ _ _ => rfl) fun _ => h.notice _

end TrustRegion

namespace LevenbergMarquardt

/-- Reports a step that was not taken, and adapts the damping. -/
def report (a : LevenbergMarquardt R) (taken : Bool) : Stepping σ R K (State R K) Unit := do
  if !taken then
    Run.notice ("Step rejected: λ = " ++ Written.write (.general 4) (← get).ext.damping)
  a.adapt

/-- A step up to its check. -/
def approach (a : LevenbergMarquardt R) (c : Setup σ R K) :
    Stepping σ R K (State R K) Unit := do
  let x ← model c
  a.report (← a.verdict c x.1 x.2)

theorem step_parts (a : LevenbergMarquardt R) (c : Setup σ R K) :
    (a.step c : Stepping σ R K (State R K) Unit) =
      a.approach c >>= fun _ => Run.check >>= fun _ => pure () := by
  have hsettle : (a.settle : Bool → Stepping σ R K (State R K) Unit) =
      fun taken => a.report taken >>= fun _ => Run.check >>= fun _ => pure () := by
    funext taken
    unfold settle report
    split <;> simp only [bind_assoc]
  simp only [step_eq, approach, hsettle, bind_assoc]

variable {ρ : Run σ R K (State R K) → Run σ R K (State R K) → Prop}

theorem correctedStep_respects (a : LevenbergMarquardt R) (h : Run.Overlooks ρ) (J : Matrix R K)
    (v : Vec K) : Respects ρ (a.correctedStep c J v) := by
  have hcorrection : Respects ρ (a.correction c J v) := by
    refine h.get_bind (fun _ _ _ _ _ => rfl) fun r => (h.evaluate c _).bind fun ahead => ?_
    split
    · exact respects_pure _
    · exact (respects_ofFault _).bind fun _ => (h.onWork _).bind fun _ =>
        (respects_ofFault _).bind fun _ => (h.onWork _).bind fun _ => respects_pure _
  unfold correctedStep
  split
  · exact respects_pure _
  · refine hcorrection.bind fun w => ?_
    cases w with
    | none => exact respects_pure _
    | some w =>
      dsimp only
      split <;> exact respects_pure _

theorem attempt_respects (a : LevenbergMarquardt R) (h : Run.Overlooks ρ) (v du : Vec K) :
    Respects ρ (a.attempt c v du) := by
  refine h.get_bind (fun _ _ _ _ _ => rfl) fun r => (h.evaluate c _).bind fun fu => ?_
  refine h.get_bind (fun _ _ _ _ _ => rfl) fun _ => (respects_ofFault _).bind fun taken => ?_
  split
  · exact (h.modify fun _ _ _ _ _ => rfl).bind fun _ => (h.moveTo _ _).bind fun _ =>
      (h.update _).bind fun _ => respects_pure _
  · exact respects_pure _

theorem approach_respects (a : LevenbergMarquardt R) (h : Run.Overlooks ρ) :
    Respects ρ (a.approach c) := by
  have hrenew : Respects ρ (renewJacobian c) :=
    h.get_bind (fun _ _ _ _ _ => rfl) fun _ => (h.onWork _).bind fun _ => h.update _
  have hmodel : Respects ρ (model c) :=
    h.get_bind (fun _ _ _ _ _ => rfl) fun _ =>
      hrenew.guard (h.get_bind (fun _ _ _ _ _ => rfl) fun _ => respects_ofFault _)
  have hvelocity : ∀ J A, Respects ρ (velocity c J A) := fun J A =>
    h.get_bind (fun _ _ _ _ _ => rfl) fun _ => (respects_ofFault _).bind fun _ =>
      (h.update _).bind fun _ => (h.onWork _).bind fun _ => (h.onWork _).bind fun _ =>
        respects_pure _
  have hverdict : ∀ J A, Respects ρ (a.verdict c J A) := by
    intro J A
    refine (hvelocity J A).bind fun v => (a.correctedStep_respects h J v).bind fun du => ?_
    cases du with
    | none => exact respects_pure _
    | some du => exact a.attempt_respects h v du
  have hreport : ∀ taken, Respects ρ (a.report taken) := by
    intro taken
    have hadapt : Respects ρ a.adapt := h.modify fun _ _ _ _ _ => rfl
    unfold report
    split
    · exact h.get_bind (fun _ _ _ _ _ => rfl) fun _ => (h.notice _).bind fun _ => hadapt
    · exact hadapt
  exact hmodel.bind fun x => (hverdict x.1 x.2).bind hreport

end LevenbergMarquardt

namespace SpectralResidual

/-- A step up to its check. -/
def approach (a : SpectralResidual σ R K) (c : Setup σ R K) :
    Stepping σ R K (State R) Unit := do
  let r ← get
  let s := r.ext
  let old := merit a.exponent (c.options.norm r.fu)
  let largest := (Vec.maximum? (.ofList s.history)).getD s.first
  let d := (-s.spectral) • r.fu
  let tolerance ← a.toleranceAt { first := s.first, step := r.steps + 1, u := r.u, fu := r.fu }
  let q : Search R K := { u := r.u, d, old, limit := largest + tolerance }
  let t ← a.trialAt c (r.u + (1.0 : R) • d)
  let (t, alpha) ← a.search c q a.innerLimit.toNat 1.0 1.0 t
  Run.update fun s => { s with spectral := a.nextSpectral r.u r.fu t }
  modify fun x => { x with previous := r.u, du := d, alpha }
  Run.moveTo t.u t.fu
  Run.update fun s =>
    { s with history := s.history.set (r.steps % a.memory.toNat) t.merit }

theorem step_parts (a : SpectralResidual σ R K) (c : Setup σ R K) :
    a.step c = a.approach c >>= fun _ => Run.check >>= fun _ => pure () := by
  simp only [step, approach, bind_assoc]

variable {ρ : Run σ R K (State R) → Run σ R K (State R) → Prop}

theorem trialAt_respects (a : SpectralResidual σ R K) (h : Run.Overlooks ρ) (u : Vec K) :
    Respects ρ (a.trialAt c u) :=
  (h.evaluate c u).bind fun _ => respects_pure _

theorem search_respects (a : SpectralResidual σ R K) (h : Run.Overlooks ρ) (q : Search R K)
    (fuel : Nat) (ahead behind : R) (t : Trial R K) :
    Respects ρ (a.search c q fuel ahead behind t) := by
  induction fuel generalizing ahead behind t with
  | zero => exact h.get_bind (fun _ _ _ _ _ => rfl) fun _ => respects_throw _
  | succ fuel ih =>
    unfold search
    split
    · exact respects_pure _
    · refine (respects_ofFault _).bind fun nextAhead => (a.trialAt_respects h _).bind fun t => ?_
      split
      · exact respects_pure _
      · exact (respects_ofFault _).bind fun nextBehind => (a.trialAt_respects h _).bind fun t =>
          ih nextAhead nextBehind t

theorem approach_respects (a : SpectralResidual σ R K) (h : Run.Overlooks ρ) :
    Respects ρ (a.approach c) := by
  have htolerance : ∀ x, Respects ρ (a.toleranceAt x) := by
    intro x
    unfold toleranceAt
    split
    · exact h.onWork _
    · exact respects_pure _
  refine h.get_bind (fun _ _ _ _ _ => rfl) fun r => (htolerance _).bind fun tolerance => ?_
  refine (a.trialAt_respects h _).bind fun t => (a.search_respects h _ _ _ _ t).bind fun x => ?_
  exact (h.update _).bind fun _ => (h.modify fun _ _ _ _ _ => rfl).bind fun _ =>
    (h.moveTo _ _).bind fun _ => h.update _

end SpectralResidual

namespace Algorithm

/-- A step of an algorithm up to its check. -/
def approach : (a : Algorithm σ R K) → Setup σ R K → Stepping σ R K a.State Unit
  | newton a, c => a.approach c
  | pseudoTransient _, c => PseudoTransient.approach c
  | trustRegion _, c => TrustRegion.approach c
  | levenbergMarquardt a, c => a.approach c
  | spectralResidual a, c => a.approach c

/-- What an algorithm does after the check of a step. -/
def aftermath : (a : Algorithm σ R K) → Bool → Stepping σ R K a.State Unit
  | pseudoTransient _, converged => PseudoTransient.aftermath converged
  | newton _, _ | trustRegion _, _ | levenbergMarquardt _, _ | spectralResidual _, _ => pure ()

/-- A step is an approach, the check and an aftermath. -/
theorem step_parts (a : Algorithm σ R K) (c : Setup σ R K) :
    a.strategy.step c = a.approach c >>= fun _ => Run.check >>= fun b => a.aftermath b := by
  cases a with
  | newton a => exact a.step_parts c
  | pseudoTransient a => exact PseudoTransient.step_parts c
  | trustRegion a => exact TrustRegion.step_parts c
  | levenbergMarquardt a => exact a.step_parts c
  | spectralResidual a => exact a.step_parts c

variable {a : Algorithm σ R K} {ρ : Run σ R K a.State → Run σ R K a.State → Prop}

theorem approach_respects (c : Setup σ R K) (h : Run.Overlooks ρ) :
    Respects ρ (a.approach c) := by
  cases a with
  | newton a => exact a.approach_respects h
  | pseudoTransient a => exact PseudoTransient.approach_respects h
  | trustRegion a => exact TrustRegion.approach_respects h
  | levenbergMarquardt a => exact a.approach_respects h
  | spectralResidual a => exact a.approach_respects h

theorem aftermath_respects (h : Run.Overlooks ρ) (converged : Bool) :
    Respects ρ (a.aftermath converged) := by
  cases a with
  | pseudoTransient a => exact PseudoTransient.aftermath_respects h converged
  | newton _ => exact respects_pure _
  | trustRegion _ => exact respects_pure _
  | levenbergMarquardt _ => exact respects_pure _
  | spectralResidual _ => exact respects_pure _

end Algorithm

end RootFinding
