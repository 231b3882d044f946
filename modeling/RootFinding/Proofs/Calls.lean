import RootFinding.Proofs.Agreement
import RootFinding.Proofs.Passages
import RootFinding.Proofs.Starts

/-!
# Calls of the residual

A solve counts every call of the caller's residual, whether or not it answers, and nothing else. The
caller can check this with a count of his own, which his residual raises and his other functions
leave alone.

* `Problem.Counts p calls`: `calls` is such a count.
* `Setup.Leaves c π`: the routines behind a step leave the part `π` of the workspace alone. For the
  difference of the two counts this is `Setup.Leaves.of_counts`.
* `Algorithm.step_leaves`: so do the steps of all algorithms, failed or not.
  `Run.step_leaves`: and those of the loop.
* `Algorithm.evaluations_counted`: what this says about the states of a solve.
-/

namespace RootFinding

open Action

variable {σ R K X T U : Type}

/-! ## Counts -/

/-- A count that the caller keeps: a call of the residual raises it by one, whatever comes of it,
and a call of the Jacobian leaves it alone. -/
structure Problem.Counts (p : Problem σ R K) (calls : σ → Nat) : Prop where
  returning : ∀ f, p.residual = .returning f → ∀ x w, calls (f x w).2 = calls w + 1
  filling : ∀ f, p.residual = .filling f → ∀ x w, calls (f x w).2 = calls w + 1
  jacobian : ∀ jac ∈ p.jacobian, ∀ x w, calls (jac x w).2 = calls w

/-- How far the caller's count is ahead of the one of the solve. -/
def Workspace.surplus (calls : σ → Nat) (w : Workspace σ R K) : Int :=
  calls w.world - w.evaluations

variable [Scalar R] [Entry R K]

/-- The routines behind a step leave a part of the workspace alone, which takes in neither the
Jacobian nor the linear system. -/
structure Setup.Leaves (c : Setup σ R K) (π : Workspace σ R K → T) : Prop where
  frames : c.backend.Frames
  blind : ∀ w system jacobian jacobians warnings,
    π { w with system, jacobian, jacobians, warnings } = π w
  evaluate : ∀ u, Keeps π (c.problem.evaluate u)
  jacobian : ∀ jac ∈ c.problem.jacobian, ∀ x, Keeps π (Workspace.call jac x)

namespace Setup.Leaves

variable {c : Setup σ R K} {π : Workspace σ R K → T}

theorem spared (h : c.Leaves π) : LinearSystem.Spared π := fun w system warnings _ =>
  h.blind w system w.jacobian w.jacobians warnings

theorem hereditary (h : c.Leaves π) :
    Work.Hereditary fun α (a : Work σ R K α) => Keeps π a :=
  Work.keeps_hereditary fun w warnings => h.blind w w.system w.jacobian w.jacobians warnings

theorem jacobianAt (h : c.Leaves π) (s : JacobianSettings R) (u : Vec K) (fu : Option (Vec K)) :
    Keeps π (c.problem.jacobianAt s u fu) := by
  have hraw : Keeps π (c.problem.rawJacobian s u fu) :=
    Problem.rawJacobian_of h.hereditary.toStraight h.evaluate h.jacobian s u fu
  refine hraw.mapError.bind fun J => ?_
  split
  · exact keeps_throw _
  · exact Keeps.bind (fun w => h.blind w _ _ _ _) fun _ => keeps_pure _

theorem factorize (h : c.Leaves π) (A : Matrix R K) :
    Keeps π (LinearSystem.factorize c.backend A) :=
  keeps_of_ends fun w => (LinearSystem.factorize_ends_given h.spared c.backend A w).mono
    (fun _ _ hw => hw.trans (h.blind w _ _ _ _)) (fun _ _ hw => hw.trans (h.blind w _ _ _ _))

theorem solve (h : c.Leaves π) (b : Vec K) :
    Keeps π (LinearSystem.solve c.backend c.problem.evaluate b) :=
  LinearSystem.solve_keeps h.spared h.frames h.evaluate b

theorem apply (h : c.Leaves π) (J : Matrix R K) (v : Vec K) :
    Keeps π (J.apply c.problem.evaluate v) :=
  J.apply_keeps h.evaluate v

end Setup.Leaves

/-- An evaluation raises both counts. -/
theorem Problem.Counts.evaluate {p : Problem σ R K} {calls : σ → Nat} (h : p.Counts calls)
    (u : Vec K) : Keeps (Workspace.surplus calls) (p.evaluate u) := by
  refine keeps_of_ends fun w => ?_
  have hcall : ∀ {α : Type} (f : Callable σ R K α (Tensor K)) (x : α),
      (∀ x w, calls (f x w).2 = calls w + 1) →
      (Workspace.call f x).Ends { w with evaluations := w.evaluations + 1 }
        (fun _ w' => w'.surplus calls = w.surplus calls)
        (fun _ w' => w'.surplus calls = w.surplus calls) := by
    intro α f x hf
    have hraised : (calls (f x w.world).2 : Int) - (w.evaluations + 1 : Nat) =
        calls w.world - w.evaluations := by
      rw [hf]
      omega
    exact ends_iff.2
      ⟨fun _ _ hw => (congrArg (fun y => y.2.surplus calls) hw).symm.trans hraised,
        fun _ _ hw => (congrArg (fun y => y.2.surplus calls) hw).symm.trans hraised⟩
  simp only [Problem.evaluate, ends_bind, ends_ofFault, ends_modify, ends_mapError]
  refine ⟨fun x _ => ?_, fun _ _ => trivial⟩
  split
  next f hf => exact hcall f x (h.returning f hf)
  next f hf => exact hcall f _ (h.filling f hf)

theorem Setup.Leaves.of_counts {c : Setup σ R K} {calls : σ → Nat} (hB : c.backend.Frames)
    (h : c.problem.Counts calls) : c.Leaves (Workspace.surplus calls) where
  frames := hB
  blind _ _ _ _ _ := rfl
  evaluate := h.evaluate
  jacobian jac hjac x w := by
    have hw := h.jacobian jac hjac x w.world
    simp [Workspace.call, Workspace.surplus, hw]

/-! ## Strategies -/

/-- What an action on the workspace leaves alone, as a part of a run. -/
def Run.inWork (π : Workspace σ R K → T) (r : Run σ R K X) : T := π r.work

section Strategies

variable {c : Setup σ R K} {π : Workspace σ R K → T}

omit [Scalar R] [Entry R K] in
/-- Leaving a part of a run alone, which is a part of what idle actions leave alone. -/
theorem Run.passage_keeps {ρ : Run σ R K X → U} {π : Run σ R K X → T}
    (h : ∀ r t, ρ t = ρ r → π t = π r) :
    Passage ρ fun α (a : Stepping σ R K X α) r => π (a.eval r).2 = π r where
  idle ha := h _ _ ha
  bind {α β a f r} ha hf := by
    rw [eval_bind]
    rcases hx : a.eval r with ⟨_ | x, t⟩
    · rwa [hx] at ha
    · rw [hx] at ha
      exact (hf x t hx).trans ha

theorem Setup.Leaves.passes {ρ : Run σ R K X → U} (h : c.Leaves π)
    (hρ : ∀ {α : Type} {b : Work σ R K α}, Keeps π b → Keeps ρ (Run.onWork b)) :
    c.Passes fun α (a : Stepping σ R K X α) r => ρ (a.eval r).2 = ρ r where
  evaluate u := hρ (h.evaluate u)
  factorize A := hρ (h.factorize A)
  solve b := hρ (h.solve b)
  apply J v := hρ (h.apply J v)

theorem Setup.Leaves.passes_inWork (h : c.Leaves π) :
    c.Passes fun α (a : Stepping σ R K X α) r => (a.eval r).2.inWork π = r.inWork π :=
  h.passes fun hb r => hb r.work

end Strategies

/-! ## Algorithms -/

namespace Algorithm

/-- The functions that the caller has passed to an algorithm leave a count alone. -/
def Spares (calls : σ → Nat) : Algorithm σ R K → Prop
  | newton a => ∀ s f, a.search.search = .ok s → s.method = .custom f →
      ∀ x w, calls (f x w).2 = calls w
  | pseudoTransient _ => True
  | trustRegion _ => True
  | levenbergMarquardt _ => True
  | spectralResidual a => ∀ rule ∈ a.tolerance, ∀ x w, calls (rule x w).2 = calls w

/-- What the caller's functions leave alone that a run may call. -/
def Calls (c : Setup σ R K) (π : Workspace σ R K → T) : (a : Algorithm σ R K) → a.State → Prop
  | newton _ => fun s => ∀ x, Keeps π (s.search.search c.problem.evaluate x)
  | pseudoTransient _ => fun _ => True
  | trustRegion _ => fun _ => True
  | levenbergMarquardt _ => fun _ => True
  | spectralResidual a => fun _ => ∀ rule ∈ a.tolerance, ∀ x, Keeps π (Workspace.call rule x)

variable {a : Algorithm σ R K} {c : Setup σ R K} {π : Workspace σ R K → T}

omit [Scalar R] [Entry R K] in
theorem passage_inWork {X : Type} :
    Run.Passage Run.work fun α (b : Stepping σ R K X α) r =>
      (b.eval r).2.inWork π = r.inWork π :=
  Run.passage_keeps fun _ _ ht => congrArg π ht

/-- A step leaves alone what the routines and the caller's functions leave alone. -/
theorem step_leaves (h : c.Leaves π) (r : Run σ R K a.State) (hr : a.Calls c π r.ext) :
    (a.strategy.step c).Ends r (fun _ t => t.inWork π = r.inWork π ∧ a.Calls c π t.ext)
      (fun _ t => t.inWork π = r.inWork π ∧ a.Calls c π t.ext) := by
  suffices ((a.strategy.step c).eval r).2.inWork π = r.inWork π ∧
      a.Calls c π ((a.strategy.step c).eval r).2.ext by
    unfold Ends
    rcases hs : (a.strategy.step c).eval r with ⟨_ | _, t⟩ <;> rwa [hs] at this
  cases a with
  | newton a =>
    -- The line search that a run may call is a part of its state.
    have hwork : ∀ {α : Type} {b : Work σ R K α}, Keeps π b →
        Keeps (Newton.withSearch π) (Run.onWork b) := fun hb r =>
      congrArg (fun x => (x, r.ext.search)) (hb r.work)
    have hkept : Newton.withSearch π ((a.step c).eval r).2 = Newton.withSearch π r := by
      refine Newton.step_of (Run.passage_keeps fun r t ht => ?_) (h.passes hwork)
        (fun _ => hwork (h.jacobianAt _ _ _) r) (fun du s _ => hwork (hr _) s)
      exact congrArg (fun x : Workspace σ R K × _ => (π x.1, x.2)) ht
    refine ⟨congrArg Prod.fst hkept, fun x => ?_⟩
    have hsearch : ((a.step c).eval r).2.ext.search = r.ext.search := congrArg Prod.snd hkept
    exact hsearch.symm ▸ hr x
  | pseudoTransient a =>
    exact ⟨PseudoTransient.step_of passage_inWork h.passes_inWork
      (Run.keeps_ofWork (h.jacobianAt _ _ _) r), trivial⟩
  | trustRegion a =>
    exact ⟨TrustRegion.step_of passage_inWork h.passes_inWork
      fun _ => Run.keeps_ofWork (h.jacobianAt _ _ _) r, trivial⟩
  | levenbergMarquardt a =>
    exact ⟨LevenbergMarquardt.step_of passage_inWork h.passes_inWork
      fun _ => Run.keeps_ofWork (h.jacobianAt _ _ _) r, trivial⟩
  | spectralResidual a =>
    exact ⟨SpectralResidual.step_of passage_inWork h.passes_inWork
      fun rule hrule x => hr rule hrule x r.work, hr⟩

end Algorithm

/-! ## Runs -/

namespace Run

variable {S : Strategy σ R K X} {c : Setup σ R K} {π : Workspace σ R K → T} {G : X → Prop}

/-- Ending a run with a failure leaves alone what an evaluation leaves alone, and the strategy's own
state. -/
theorem endWith_leaves (h : c.Leaves π) (f : Failure R K) :
    Keeps (fun r : Run σ R K X => (r.inWork π, r.ext)) (endWith c f) := by
  have hevaluate : ∀ u, Keeps (fun r : Run σ R K X => (r.inWork π, r.ext)) (evaluate c u) :=
    fun u r => congrArg (fun x => (x, r.ext)) (h.evaluate u r.work)
  have hback : Keeps (fun r : Run σ R K X => (r.inWork π, r.ext)) (fallBack c) := by
    refine keeps_get.bind fun r => ?_
    dsimp only
    split
    · exact keeps_pure _
    · refine (hevaluate _).attempt.bind fun x => ?_
      rcases x with (f | e) | fu
      · exact keeps_pure _
      · exact keeps_throw _
      · exact fun _ => rfl
  refine Keeps.bind (fun _ => rfl) fun _ => Keeps.bind (fun _ => rfl) fun _ =>
    keeps_get.bind fun r => ?_
  split
  · exact hback
  · exact keeps_pure _

/-- A step of the loop leaves alone what the step of the strategy leaves alone, whatever comes of
it. -/
theorem step_leaves (h : c.Leaves π) (hS : ∀ r : Run σ R K X, G r.ext → (S.step c).Ends r
      (fun _ t => t.inWork π = r.inWork π ∧ G t.ext) (fun _ t => t.inWork π = r.inWork π ∧ G t.ext))
    (r : Run σ R K X) (hr : G r.ext) :
    (step S c).Ends r (fun _ t => t.inWork π = r.inWork π ∧ G t.ext)
      (fun _ t => t.inWork π = r.inWork π ∧ G t.ext) := by
  have hrecord : ∀ s : Run σ R K X, s.inWork π = r.inWork π ∧ G s.ext → (record c r.u).Ends s
      (fun _ t => t.inWork π = r.inWork π ∧ G t.ext)
      (fun _ t => t.inWork π = r.inWork π ∧ G t.ext) := fun s hs => by
    obtain ⟨trace, printed, ht⟩ := record_eval c r.u s
    unfold Ends
    rw [ht]
    exact hs
  rw [step, ends_bind, ends_get, ends_bind, ends_attempt]
  refine (hS r hr).mono (fun _ s hs => hrecord s hs) (fun e s hs => ?_)
  cases e with
  | fault e => exact hs
  | failure f =>
    have hended : ∀ t : Run σ R K X, (t.inWork π, t.ext) = (s.inWork π, s.ext) →
        t.inWork π = r.inWork π ∧ G t.ext := fun t ht => by
      obtain ⟨hwork, hext⟩ := Prod.mk.inj ht
      exact ⟨hwork.trans hs.1, hext ▸ hs.2⟩
    exact ((endWith_leaves h f).ends s).bind (fun _ t ht => hrecord t (hended t ht))
      (fun _ t ht => hended t ht)

end Run

namespace Algorithm

variable {a : Algorithm σ R K} {c : Setup σ R K} {calls : σ → Nat} {world : σ}
  {r t : Run σ R K a.State}

theorem calls_of_start (h : c.Leaves (Workspace.surplus calls)) (ha : a.Spares calls)
    (hstart : Run.start a.strategy c world = .ok r) :
    a.Calls c (Workspace.surplus calls) r.ext := by
  have hcall : ∀ {α β : Type} (f : Callable σ R K α β) (x : α),
      (∀ w, calls (f x w).2 = calls w) →
      Keeps (Workspace.surplus calls) (Workspace.call f x : Work σ R K β) := by
    intro α β f x hf w
    have hw := hf w.world
    simp [Workspace.call, Workspace.surplus, hw]
  cases a with
  | newton a =>
    have hsearch : a.search.search = .ok r.ext.search :=
      (Newton.start_ok (Run.start_prepared hstart)).search
    exact fun x => LineSearch.search_of h.hereditary h.evaluate _
      (fun f hf y => hcall _ y fun w => ha _ f hsearch hf y w) x
  | pseudoTransient a => trivial
  | trustRegion a => trivial
  | levenbergMarquardt a => trivial
  | spectralResidual a => exact fun rule hrule x => hcall rule x fun w => ha rule hrule x w

/-- **Every call is counted.**  Wherever a run gets, and in what a step leaves that raises, the
caller has counted as many calls of the residual as the solve has counted evaluations. -/
theorem evaluations_counted (hB : c.backend.Frames) (hp : c.problem.Counts calls)
    (ha : a.Spares calls) (hstart : Run.start a.strategy c world = .ok r)
    (h : Run.Leads a.strategy c r t) :
    calls t.work.world = calls world + t.work.evaluations ∧
      ∀ e t', (Run.step a.strategy c).eval t = (.error e, t') →
        calls t'.work.world = calls world + t'.work.evaluations := by
  have hleaves : c.Leaves (Workspace.surplus calls) := .of_counts hB hp
  have hcounted : ∀ t : Run σ R K a.State, t.inWork (Workspace.surplus calls) = calls world →
      calls t.work.world = calls world + t.work.evaluations := fun t ht => by
    have ht : (calls t.work.world : Int) - t.work.evaluations = calls world := ht
    omega
  have hfirst : r.inWork (Workspace.surplus calls) = calls world := by
    obtain ⟨fu, work, system, ext, started⟩ := Run.start_ok hstart
    have hwork : work.surplus calls = (Run.emptyWorkspace world : Workspace σ R K).surplus calls :=
      ((hp.evaluate _).ends _).ok started.residual
    rw [started.eq]
    exact hwork.trans (Int.sub_zero _)
  have hstep := fun s => Run.step_leaves (G := a.Calls c (Workspace.surplus calls)) hleaves
    (fun s hs => step_leaves hleaves s hs) s
  have ht : t.inWork (Workspace.surplus calls) = calls world ∧
      a.Calls c (Workspace.surplus calls) t.ext := by
    refine Run.Leads.invariant (I := fun t => t.inWork (Workspace.surplus calls) = calls world ∧
      a.Calls c (Workspace.surplus calls) t.ext) h ?_ (fun _ hs => hs) fun s t hs _ hst => ?_
    · exact ⟨hfirst, calls_of_start hleaves ha hstart⟩
    · obtain ⟨hwork, hext⟩ := (hstep s hs.2).ok hst
      exact ⟨hwork.trans hs.1, hext⟩
  refine ⟨hcounted t ht.1, fun e t' ht' => hcounted t' ?_⟩
  exact ((hstep t ht.2).error ht').1.trans ht.1

end Algorithm

end RootFinding
