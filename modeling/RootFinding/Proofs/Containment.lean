import RootFinding.Proofs.Consistency
import RootFinding.Proofs.Searches
import RootFinding.Proofs.Systems

/-!
# Failures stay inside the loop

A failure of a step is stored and ends the run; only a fault leaves the loop. So what a solve may
end with, once it has started, are the faults of the strategy's steps.

* `Setup.Fits c P m`: the sizes and the kind of entries that the parts of a setup keep to.
* `Run.Going c P m r`: the sizes of a run that has not failed.
* `Termination.Escapes`: the faults of the termination test.
* `Strategy.Contained S c P m I B`: the steps of a strategy keep the invariant `I` and end in no
  other faults than those of `B`. `Contained.step`, `Contained.leads` and `Contained.solve` carry
  that over to the steps of the loop, the states of a run and a solve.
-/

namespace RootFinding

open Action

variable {σ R K X : Type} [Scalar R] [Entry R K] {P : K → Prop} {m : Nat} {c : Setup σ R K}

/-- The guess has entries, the residual always answers `m` of them, and all entries are of the kind
`P`: those of the guess, those that the caller's functions answer for such, and the solutions of
linear systems with such. -/
structure Setup.Fits (c : Setup σ R K) (P : K → Prop) (m : Nat) : Prop where
  closed : Entry.Closed P
  answers : c.problem.Answers P m
  shape : c.problem.size = Tensor.sizeOf c.problem.guess.shape
  nonempty : 0 < c.problem.size
  guess : ∀ x ∈ c.problem.guess.entries.toList, P x
  backend : c.backend.Fits P

/-- The kind `P` has entries with an imaginary part. -/
def Entry.IsComplex (P : K → Prop) : Prop := ∃ x, P x ∧ Entry.isReal x = false

/-! ## Faults of single numbers -/

theorem Checked.div_error {x y : R} {f : Fault} (h : Checked.div x y = .error f) :
    Scalar.same y 0.0 ∧ f = .zeroDivision := by
  unfold Checked.div at h
  split at h
  next hzero =>
    cases h
    exact ⟨hzero, rfl⟩
  next => cases h

theorem Checked.square_error {x : R} {f : Fault} (h : Checked.square x = .error f) :
    Scalar.isFinite x ∧ Scalar.isFinite (Scalar.square x) = false ∧ f = .overflow := by
  unfold Checked.square Checked.finite at h
  split at h
  next hlarge =>
    cases h
    simp only [Bool.and_eq_true, Bool.not_eq_true'] at hlarge
    exact ⟨hlarge.1, hlarge.2, rfl⟩
  next => cases h

/-! ## The termination test -/

omit [Scalar R] [Entry R K] in
/-- Two vectors are paired, or neither size is one and they differ. -/
theorem Vec.align_cases {L M : Type} (f : K → L → M) (u : Vec K) (v : Vec L) :
    (∃ w, Vec.align f u v = .ok w ∧ (w.size = u.size ∨ u.size = 1)) ∨
      (Vec.align f u v = .error (.misaligned u.size v.size) ∧ u.size ≠ v.size ∧ u.size ≠ 1 ∧
        v.size ≠ 1) := by
  unfold Vec.align
  split
  next h =>
    refine .inl ⟨_, rfl, .inl ?_⟩
    have hmin : (Vec.zipWith f u v).size = min u.size v.size := List.length_zipWith
    rw [hmin, ← h, Nat.min_self]
  next h =>
    split
    next x ys hu => exact .inl ⟨_, rfl, .inr (congrArg List.length hu)⟩
    next y hu hv => exact .inl ⟨_, rfl, .inl (List.length_map _)⟩
    next hu hv =>
      refine .inr ⟨rfl, h, fun hone => ?_, fun hone => ?_⟩
      · obtain ⟨x, hx⟩ := List.length_eq_one_iff.1 hone
        exact hu x hx
      · obtain ⟨y, hy⟩ := List.length_eq_one_iff.1 hone
        exact hv y hy

/-- The faults of a termination test of `m` equations in `n` unknowns: a relative bound adds a
residual to an iterate. -/
inductive Termination.Escapes (t : Termination R) (m n : Nat) : Fault → Prop
  | misaligned (relative : t.mode.isRelative) (sizes : m ≠ n) (equations : m ≠ 1)
    (unknowns : n ≠ 1) : Escapes t m n (.misaligned m n)

namespace Checker

variable {k : Checker R K} {fu u : Vec K} {f : Fault}

theorem criterion_escapes (h : k.criterion fu u = .error f) :
    k.settings.Escapes fu.size u.size f := by
  unfold criterion at h
  split at h
  next hrelative =>
    rcases Vec.align_cases (· + ·) fu u with ⟨w, hw, -⟩ | ⟨hw, hsizes, hfu, hu⟩
    · rw [hw] at h
      cases h
    · rw [hw] at h
      cases h
      exact .misaligned hrelative hsizes hfu hu
  next => cases h

theorem entriesConverged_escapes (h : k.entriesConverged fu u = .error f) :
    k.settings.Escapes fu.size u.size f := by
  unfold entriesConverged at h
  split at h
  next hrelative =>
    rcases Vec.align_cases (· + ·) fu u with ⟨w, hw, hsize⟩ | ⟨hw, hsizes, hfu, hu⟩
    · -- what was added to the residual can be compared with it
      simp only [hw, bind, Except.bind] at h
      let small (f s : K) := decide (Entry.abs f ≤ k.reltol * Entry.abs s)
      rcases Vec.align_cases small fu w with ⟨below, hbelow, -⟩ | ⟨-, hsizes, hfu, -⟩
      · rw [hbelow] at h
        cases h
      · rcases hsize with hsize | hsize
        · exact (hsizes hsize.symm).elim
        · exact (hfu hsize).elim
    · rw [hw] at h
      cases h
      exact .misaligned hrelative hsizes hfu hu
  next => cases h

omit [Entry R K] in
theorem checkProgress_settings (objective criterion : R) (u : Vec K) (k : Checker R K) :
    (checkProgress objective criterion u).Ends k (fun _ k' => k'.settings = k.settings)
      (fun e k' => k'.settings = k.settings ∧ ∀ f, e ≠ .fault f) := by
  simp only [checkProgress, ends_bind, ends_get]
  split <;> split <;> simp only [ends_bind, ends_set, ends_get, ends_modify, ends_fail]
  · exact ⟨trivial, by simp⟩
  · split
    · exact ⟨rfl, by simp⟩
    · rfl
  · exact ⟨trivial, by simp⟩
  · split
    · exact ⟨rfl, by simp⟩
    · rfl

/-- A test keeps its settings, and has no other faults than those of its bound. -/
theorem check_escapes {previous : Vec K} (fu : Vec K) (h : u.size = previous.size)
    (k : Checker R K) : (check fu u previous).Ends k (fun _ k' => k'.settings = k.settings)
      (fun e k' => k'.settings = k.settings ∧
        ∀ f, e = .fault f → k.settings.Escapes fu.size u.size f) := by
  simp only [check, ends_bind, ends_get]
  split
  next =>
    simp only [ends_bind, ends_ofFault, ends_fail, Vec.align_of_size h]
    exact ⟨fun _ _ => ⟨trivial, by simp⟩, by simp⟩
  next =>
    simp only [ends_bind, ends_set]
    have hentries : ∀ f, entriesConverged { k with lastFinite := u } fu u = .error f →
        k.settings.Escapes fu.size u.size f := fun f hf =>
      entriesConverged_escapes (k := { k with lastFinite := u }) hf
    have hcriterion : ∀ f, criterion { k with lastFinite := u } fu u = .error f →
        k.settings.Escapes fu.size u.size f := fun f hf =>
      criterion_escapes (k := { k with lastFinite := u }) hf
    split
    · simp only [ends_ofFault]
      exact ⟨fun _ _ => trivial,
        fun f hf => ⟨trivial, fun g hg => by cases hg; exact hentries f hf⟩⟩
    · simp only [ends_ofFault]
      exact ⟨fun _ _ => trivial,
        fun f hf => ⟨trivial, fun g hg => by cases hg; exact hentries f hf⟩⟩
    · simp only [ends_bind, ends_ofFault]
      refine ⟨fun criterion _ => ?_,
        fun f hf => ⟨trivial, fun g hg => by cases hg; exact hcriterion f hf⟩⟩
      split
      · rfl
      · split
        · rw [ends_bind]
          refine (checkProgress_settings _ _ _ _).mono (fun _ k' hk => hk) (fun e k' hk => ?_)
          exact ⟨hk.1, fun f hf => (hk.2 f hf).elim⟩
        · rfl

end Checker

/-! ## Sizes of a run -/

namespace Run

/-- The iterates and the residual of a run have the sizes and the kind of entries of its setup. -/
structure Fits (c : Setup σ R K) (P : K → Prop) (m : Nat) (r : Run σ R K X) : Prop where
  u : r.u.Fits P c.problem.size
  previous : r.previous.Fits P c.problem.size
  fu : r.fu.Fits P m
  remembers : r.checker.Remembers (Vec.Fits P c.problem.size)
  settings : r.checker.settings = c.options.termination

/-- A run that fits and has not failed. -/
structure Going (c : Setup σ R K) (P : K → Prop) (m : Nat) (r : Run σ R K X) : Prop
    extends Fits c P m r where
  error : r.error = none
  code : r.code = .default ∨ r.code = .success

/-- A run that has failed, with its failure and the return code of it. -/
structure Failed (g : Failure R K) (r : Run σ R K X) : Prop where
  error : r.error = some g
  code : r.code = g.returnCode
  stopped : r.stopped

variable {r t : Run σ R K X}

omit [Scalar R] [Entry R K] in
theorem Fits.of_core (h : r.Fits c P m) (ht : t.core = r.core)
    (hprevious : t.previous = r.previous) :
    t.Fits c P m := by
  simp only [core, Prod.mk.injEq] at ht
  rcases ht with ⟨hu, hfu, hk⟩
  refine ⟨?_, ?_, ?_, ?_, ?_⟩
  · rw [hu]
    exact h.u
  · rw [hprevious]
    exact h.previous
  · rw [hfu]
    exact h.fu
  · rw [hk]
    exact h.remembers
  · rw [hk]
    exact h.settings

omit [Scalar R] [Entry R K] in
theorem Going.of_core (h : r.Going c P m) (ht : t.core = r.core)
    (hprevious : t.previous = r.previous)
    (herror : t.error = r.error) (hcode : t.code = r.code) : t.Going c P m := by
  refine ⟨h.toFits.of_core ht hprevious, ?_, ?_⟩
  · rw [herror]
    exact h.error
  · rw [hcode]
    exact h.code

/-! ### Parts of a step -/

/-- A step has been left with an error, a failure or one of the faults `B`; the run still fits. -/
def Aborted (c : Setup σ R K) (P : K → Prop) (m : Nat) (B : Fault → Prop) (e : Thrown R K)
    (t : Run σ R K X) : Prop :=
  t.Fits c P m ∧ ∀ f, e = .fault f → B f

variable {B B' : Fault → Prop} {e : Thrown R K}

omit [Scalar R] [Entry R K] in
theorem Aborted.mono (h : t.Aborted c P m B e) (hB : ∀ f, B f → B' f) : t.Aborted c P m B' e :=
  ⟨h.1, fun f hf => hB f (h.2 f hf)⟩

omit [Scalar R] [Entry R K] in
theorem Going.withWork (h : r.Going c P m) (w : Workspace σ R K) :
    Going c P m { r with work := w } :=
  h.of_core rfl rfl rfl rfl

omit [Scalar R] [Entry R K] in
/-- A part of a step that works on the workspace alone. -/
theorem onWork_going {α : Type} {a : Work σ R K α} {Q : α → Workspace σ R K → Prop}
    (hr : r.Going c P m) (h : a.Ends r.work Q fun e _ => ∀ f, e = .fault f → B f) :
    (onWork a).Ends r (fun x t => ∃ w, t = { r with work := w } ∧ Q x w)
      (fun e t => t.Aborted c P m B e) := by
  rw [ends_onWork]
  exact h.mono (fun x w hw => ⟨w, rfl, hw⟩) (fun e w he => ⟨(hr.withWork w).toFits, he⟩)

/-- An evaluation at a point that fits answers a residual that fits, and reaches neither the stored
Jacobian nor the linear system. -/
theorem evaluate_fits (hc : c.Fits P m) {v : Vec K} (hv : v.Fits P c.problem.size)
    (w : Workspace σ R K) :
    (c.problem.evaluate v).Ends w
      (fun fu w' => fu.Fits P m ∧ w'.jacobian = w.jacobian ∧ w'.system = w.system)
      (fun e _ => ∀ f, e ≠ .fault f) := by
  have hsafe := (Problem.evaluate_fits hc.answers hc.shape w.machinery).kind hv
  refine (hsafe w rfl).mono (fun fu w' h => ?_) (fun e _ h f hf => h.2 f hf)
  obtain ⟨hjacobian, hsystem⟩ := Prod.mk.inj h.1
  exact ⟨h.2, hjacobian, hsystem⟩

theorem evaluate_going (hc : c.Fits P m) (hr : r.Going c P m) {v : Vec K}
    (hv : v.Fits P c.problem.size) :
    (evaluate c v).Ends r
      (fun fu t => ∃ w, t = { r with work := w } ∧ fu.Fits P m ∧
        w.jacobian = r.work.jacobian ∧ w.system = r.work.system)
      (fun e t => t.Aborted c P m B e) :=
  onWork_going hr ((evaluate_fits hc hv r.work).mono (fun _ _ h => h)
    (fun _ _ he f hf => (he f hf).elim))

/-- A new Jacobian serves, and leaves the linear system alone. -/
theorem jacobianAt_going (hc : c.Fits P m) (hr : r.Going c P m) (j : JacobianSettings R) :
    (onWork (c.problem.jacobianAt j r.u (some r.fu))).Ends r
      (fun J t => ∃ w, t = { r with work := w } ∧ w.jacobian = some J ∧
        w.system = r.work.system ∧ c.problem.Serves P m j J)
      (fun e t => t.Aborted c P m B e) :=
  onWork_going hr ((Problem.jacobianAt_safe hc.closed hc.answers hc.shape hr.u hr.fu r.work).mono
    (fun _ _ h => h) (fun _ _ he f hf => (he f hf).elim))

/-- A product with a concrete matrix. -/
theorem apply_going (hc : c.Fits P m) (hr : r.Going c P m) {J : Matrix R K} {n : Nat}
    (hJ : J.Fits P m n) (hfree : ¬J.IsFree) {v : Vec K} (hv : v.Fits P n) :
    (onWork (J.apply c.problem.evaluate v)).Ends r
      (fun y t => ∃ w, t = { r with work := w } ∧ y.Fits P m ∧
        w.jacobian = r.work.jacobian ∧ w.system = r.work.system)
      (fun e t => t.Aborted c P m B e) :=
  onWork_going hr ((Matrix.apply_ends hc.closed hJ hfree hv r.work).mono
    (fun _ _ h => h) (fun _ _ he f hf => (he f hf).elim))

section Systems

variable {n : Nat} {square free complex finite : Prop} {s₀ : LinearSystem R K} {A : Matrix R K}
  {M : SolveMethod}

theorem factorize_going (hr : r.Going c P m) {h : Nat}
    (hs : s₀.Continues P n square free r.work.system) (hA : A.Fits P h n)
    (hsquare : square ↔ h = n) (hAfree : A.IsFree ↔ free) (hfree : free → square) :
    (onWork (LinearSystem.factorize c.backend A)).Ends r
      (fun _ t => ∃ w, t = { r with work := w } ∧ w.jacobian = r.work.jacobian ∧
        s₀.Continues P n square free w.system ∧ ∃ M, w.system.Ready A M)
      (fun e t => t.Aborted c P m (s₀.Escapes square complex finite) e) :=
  onWork_going hr ((LinearSystem.factorize_ends hs hA hsquare hAfree hfree).mono
    (fun _ _ ht => ⟨congrArg (·.jacobian) ht.1, ht.2⟩) (fun _ _ he => he))

theorem solve_going (hc : c.Fits P m) (hr : r.Going c P m) {h : Nat}
    (hs : s₀.Continues P c.problem.size square free r.work.system)
    (hready : r.work.system.Ready A M) (hA : A.Fits P h c.problem.size)
    (hsquare : square ↔ h = c.problem.size) {b : Vec K} (hb : b.Fits P h)
    (hfinite : finite → (∀ D, A.toDense? = some D → Dense.isFinite D = true) ∧ b.isFinite = true)
    (hF : A.IsFree → ∀ k, Difference.Field.Fits (fun w => w.machinery = k) P c.problem.size h
      c.problem.evaluate) :
    (onWork (LinearSystem.solve c.backend c.problem.evaluate b)).Ends r
      (fun x t => ∃ w, t = { r with work := w } ∧ x.Fits P c.problem.size ∧
        w.jacobian = r.work.jacobian ∧ s₀.Continues P c.problem.size square free w.system ∧
        w.system.Ready A M)
      (fun e t => t.Aborted c P m (s₀.Escapes square (Entry.IsComplex P) finite) e) :=
  onWork_going hr
    (LinearSystem.solve_ends hc.closed hc.backend hc.nonempty hs hready hA hsquare hb id hfinite hF)

end Systems

/-- A test of a run that is going leaves it going, at finite values, with the parts of the strategy
untouched. -/
theorem check_going (hr : r.Going c P m) :
    check.Ends r
      (fun _ t => t.Going c P m ∧ t.fu.isFinite ∧ t.fu = r.fu ∧ t.u = r.u ∧
        t.previous = r.previous ∧ t.work = r.work ∧ t.ext = r.ext)
      (fun e t => t.Aborted c P m (c.options.termination.Escapes m c.problem.size) e) := by
  have hsize : r.u.size = r.previous.size := hr.u.size.trans hr.previous.size.symm
  have hcheck := (Checker.check_remembers (P := Vec.Fits P c.problem.size) r.previous
    (fun _ _ => hr.u) hr.remembers).and (Checker.check_escapes r.fu hsize r.checker)
  simp only [check, ends_bind, ends_get, ends_within]
  apply hcheck.mono
  · intro converged k hk
    rcases hk with ⟨⟨-, hfu, hremembers⟩, hsettings⟩
    have hfits : Fits c P m { r with checker := k } :=
      ⟨hr.u, hr.previous, hr.fu, hremembers, hsettings.trans hr.settings⟩
    split
    · refine ⟨⟨⟨hfits.u, hfits.previous, hfits.fu, hfits.remembers, hfits.settings⟩, hr.error,
        .inr rfl⟩, hfu, rfl, rfl, rfl, rfl, rfl⟩
    · exact ⟨⟨hfits, hr.error, hr.code⟩, hfu, rfl, rfl, rfl, rfl, rfl⟩
  · intro e k hk
    rcases hk with ⟨hremembers, hsettings, hfaults⟩
    refine ⟨⟨hr.u, hr.previous, hr.fu, hremembers, hsettings.trans hr.settings⟩, fun f hf => ?_⟩
    have hescapes := hfaults f hf
    rw [hr.settings, hr.fu.size, hr.u.size] at hescapes
    exact hescapes

/-- A run that is ended with a failure still fits, and nothing leaves it. -/
theorem endWith_fits (hc : c.Fits P m) (g : Failure R K) (hr : r.Fits c P m) :
    (endWith c g).Ends r (fun _ t => t.Fits c P m ∧ t.Failed g) (fun _ _ => False) := by
  have hfallback : r.checker.fallback.Fits P c.problem.size := hr.remembers.fallback
  have hevaluate := evaluate_fits hc hfallback r.work
  apply (endWith_ends c g r).mono
  · intro _ t ht
    have hprevious : t.previous = r.previous := congrArg (·.previous) ht.rest
    refine ⟨?_, ht.error_eq, ht.code_eq, ht.stopped_eq⟩
    rcases ht.fellBack.core_cases with hcore | ⟨fu, w, hresidual, hcore⟩
    · exact hr.of_core hcore hprevious
    · have hmoved : Fits c P m { r with u := r.checker.fallback, fu } :=
        ⟨hfallback, hr.previous, (hevaluate.ok hresidual).1, hr.remembers, hr.settings⟩
      exact hmoved.of_core hcore hprevious
  · intro e _ hfailed
    rcases hfailed with ⟨f, w, rfl, hresidual, -⟩
    exact hevaluate.error hresidual f rfl

omit [Scalar R] [Entry R K] in
/-- A run that fits has a solution. -/
theorem solution_of_sizes (hp : c.problem.size = Tensor.sizeOf c.problem.guess.shape)
    (hu : r.u.size = c.problem.size) : ∃ s, r.solution c.problem = .ok s := by
  have hreshape : ∀ {v : Vec K} {shape : Shape}, v.size = Tensor.sizeOf shape →
      ∃ t, c.problem.toUser v shape = .ok t := fun {v shape} h => by
    unfold Problem.toUser Tensor.reshape
    rw [if_pos h]
    split <;> exact ⟨_, rfl⟩
  obtain ⟨u, hu⟩ := hreshape (hu.trans hp)
  have hresidual : ∃ t, c.problem.residualToUser r.work.residualShape r.fu = .ok t := by
    have hflat : r.fu.size = Tensor.sizeOf [r.fu.size] := (Nat.one_mul _).symm
    unfold Problem.residualToUser
    split
    · split
      next hshape => exact hreshape hshape.symm
      next => exact hreshape hflat
    · exact hreshape hflat
  rcases hresidual with ⟨f, hf⟩
  unfold solution
  rw [hu, hf]
  exact ⟨_, rfl⟩

end Run

/-! ## Strategies -/

/-- From a run that is going, a step of the strategy leads to one that is going, with the strategy's
invariant `I`, or it fails, or it ends in one of the faults `B` of the run that it began with. -/
def Strategy.Contained (S : Strategy σ R K X) (c : Setup σ R K) (P : K → Prop) (m : Nat)
    (I : Workspace σ R K → Vec K → X → Prop) (B : Run σ R K X → Fault → Prop) : Prop :=
  ∀ r : Run σ R K X, r.Going c P m → I r.work r.fu r.ext →
    (S.step c).Ends r (fun _ t => t.Going c P m ∧ I t.work t.fu t.ext)
      (fun e t => t.Fits c P m ∧ ∀ f, e = .fault f → B r f)

/-- A run between two steps. -/
inductive Run.Stands (c : Setup σ R K) (P : K → Prop) (m : Nat)
    (I : Workspace σ R K → Vec K → X → Prop) (r : Run σ R K X) : Prop
  | going (going : r.Going c P m) (own : I r.work r.fu r.ext)
  | failed (g : Failure R K) (fits : r.Fits c P m) (failed : r.Failed g)

/-- What a solution reports: the failure of the run with its return code, or how the run has ended
without one. -/
inductive Solution.Reports (s : Solution R K) : Prop
  | failure (g : Failure R K) (error : s.error = some g) (code : s.code = g.returnCode)
  | ended (error : s.error = none) (code : s.code = .success ∨ s.code = .maxIters)

section Contained

variable {S : Strategy σ R K X} {I : Workspace σ R K → Vec K → X → Prop}
  {B : Run σ R K X → Fault → Prop} {r s t : Run σ R K X} {world : σ}

omit [Scalar R] [Entry R K] in
theorem Run.Stands.fits (h : r.Stands c P m I) : r.Fits c P m := by
  cases h with
  | going h => exact h.toFits
  | failed g h => exact h

omit [Scalar R] [Entry R K] in
/-- Reports do not matter. -/
theorem Run.Stands.report (h : r.Stands c P m I) (steps : Nat) (trace : List (TraceEntry R))
    (printed : String) : Run.Stands c P m I { r with steps, trace, printed } := by
  cases h with
  | going h own => exact .going (h.of_core rfl rfl rfl rfl) own
  | failed g h hfailed =>
    exact .failed g (h.of_core rfl rfl) ⟨hfailed.error, hfailed.code, hfailed.stopped⟩

/-- A step of the loop: a failure of the strategy is stored, and only its faults leave. -/
theorem Strategy.Contained.step (hS : S.Contained c P m I B) (hc : c.Fits P m)
    (hr : r.Going c P m) (hI : I r.work r.fu r.ext) :
    (Run.step S c).Ends r
      (fun _ t => t.Stands c P m I ∧
        ∀ g s, (S.step c).eval r = (.error (.failure g), s) → t.Failed g)
      (fun e _ => ∃ f, e = .fault f ∧ B r f) := by
  have hrecord : ∀ s : Run σ R K X, s.Stands c P m I →
      (Run.record c r.u).Ends s (fun _ t => t.Stands c P m I ∧ ∀ g, s.Failed g → t.Failed g)
        (fun _ _ => False) := by
    intro s hs
    obtain ⟨trace, printed, heval⟩ := Run.record_eval c r.u s
    rw [ends_iff]
    constructor
    · intro _ t ht
      rw [heval] at ht
      cases ht
      exact ⟨hs.report _ _ _, fun g hg => ⟨hg.error, hg.code, hg.stopped⟩⟩
    · intro e t ht
      rw [heval] at ht
      cases ht
  simp only [Run.step, ends_bind, ends_get, ends_attempt]
  rw [ends_iff]
  constructor
  · intro _ s hs
    obtain ⟨hgoing, hown⟩ := (hS r hr hI).ok hs
    refine (hrecord s (.going hgoing hown)).mono (fun _ t ht => ⟨ht.1, ?_⟩) (fun _ _ h => h.elim)
    intro g s' hg
    rw [hs] at hg
    cases hg
  · intro e s hs
    obtain ⟨hfits, hfaults⟩ := (hS r hr hI).error hs
    cases e with
    | fault f => exact ⟨f, rfl, hfaults f rfl⟩
    | failure g =>
      refine (Run.endWith_fits hc g hfits).bind (fun _ s' hs' => ?_) (fun _ _ h => h.elim)
      refine (hrecord s' (.failed g hs'.1 hs'.2)).mono (fun _ t ht => ⟨ht.1, ?_⟩)
        (fun _ _ h => h.elim)
      intro g' s₁ hg'
      rw [hs] at hg'
      cases hg'
      exact ht.2 g hs'.2

omit [Scalar R] [Entry R K] in
/-- A run that has failed is not active. -/
theorem Run.Stands.of_isActive (h : r.Stands c P m I) (hactive : r.isActive) :
    r.Going c P m ∧ I r.work r.fu r.ext := by
  cases h with
  | going h own => exact ⟨h, own⟩
  | failed g _ hfailed =>
    have hstopped := Run.stopped_of_isActive hactive
    rw [hfailed.stopped] at hstopped
    cases hstopped

theorem Strategy.Contained.leads (hS : S.Contained c P m I B) (hc : c.Fits P m)
    (h : Run.Leads S c r t) (hr : r.Stands c P m I) : t.Stands c P m I := by
  refine h.invariant hr (fun s hs => hs.report _ _ _) (fun s t hs hactive hstep => ?_)
  obtain ⟨hgoing, hown⟩ := hs.of_isActive hactive
  exact ((hS.step hc hgoing hown).ok hstep).1

/-- What leaves the loop is a fault of a step from a state that the run has got to. -/
theorem Strategy.Contained.loop (hS : S.Contained c P m I B) (hc : c.Fits P m)
    (hr : r.Stands c P m I) (h : Run.Leads S c r s) (fuel : Nat) :
    (Run.loop S c fuel).Ends s (fun _ t => Run.Leads S c r t)
      (fun e _ => ∃ t f, Run.Leads S c r t ∧ t.isActive ∧ B t f ∧ e = .fault f) := by
  induction fuel generalizing s with
  | zero => exact h
  | succ fuel ih =>
    simp only [Run.loop, ends_bind, ends_get]
    split
    next hactive =>
      obtain ⟨hgoing, hown⟩ := (hS.leads hc h hr).of_isActive hactive
      rw [ends_bind]
      refine ends_iff.2 ⟨fun _ t ht => ih (h.step hactive ht), fun e t ht => ?_⟩
      obtain ⟨f, hf, hB⟩ := (hS.step hc hgoing hown).error ht
      exact ⟨s, f, h, hactive, hB, hf⟩
    next => exact h

/-- A run that stands has a solution, which reports its failure. -/
theorem Run.Stands.solution (h : r.Stands c P m I) (hc : c.Fits P m) :
    ∃ s, (r.closed c).solution c.problem = .ok s ∧ s.Reports := by
  have hsize : (r.closed c).u.size = c.problem.size := h.fits.u.size
  obtain ⟨s, hs⟩ := Run.solution_of_sizes hc.shape hsize
  obtain ⟨-, -, hcode, herror, -⟩ := Run.solution_ok hs
  have hcode : s.code = r.finalCode := hcode
  have herror : s.error = r.error := herror
  refine ⟨s, hs, ?_⟩
  unfold Run.finalCode at hcode
  cases h with
  | going h own =>
    refine .ended (herror.trans h.error) ?_
    rcases h.code with hdefault | hsuccess
    · rw [if_pos hdefault] at hcode
      rw [hcode]
      split
      · exact .inr rfl
      · exact .inl rfl
    · rw [hsuccess] at hcode
      exact .inl hcode
  | failed g h hfailed =>
    have hne : ¬r.code = .default := by
      rw [hfailed.code, Failure.returnCode]
      cases g.kind <;> exact nofun
    rw [if_neg hne] at hcode
    exact .failure g (herror.trans hfailed.error) (hcode.trans hfailed.code)

/-- A solve answers a solution that reports its failure, or ends in a fault of a step. -/
theorem Strategy.Contained.solve (hS : S.Contained c P m I B) (hc : c.Fits P m)
    (hstart : Run.start S c world = .ok r) (hr : r.Stands c P m I) :
    (∃ s t, S.solve c world = .ok (s, t) ∧ s.Reports) ∨
      ∃ t f, Run.Leads S c r t ∧ t.isActive ∧ B t f ∧ S.solve c world = .error (.fault f) := by
  have hfinish : (Run.finish S c).Ends r (fun s _ => s.Reports)
      (fun e _ => ∃ t f, Run.Leads S c r t ∧ t.isActive ∧ B t f ∧ e = .fault f) := by
    simp only [Run.finish, ends_bind, ends_get, Run.ends_print, ends_modify, ends_ofFault]
    refine (hS.loop hc hr (.headline .refl) _).mono (fun _ e he => ?_) (fun _ _ h => h)
    obtain ⟨s, hs, hreports⟩ := (hS.leads hc he hr).solution hc
    constructor
    · intro s' hs'
      have hsame : Except.ok s' = Except.ok s := hs'.symm.trans hs
      cases hsame
      exact hreports
    · intro f hf
      have hsame : Except.error f = Except.ok s := hf.symm.trans hs
      cases hsame
  unfold Strategy.solve
  rw [hstart]
  rcases hf : (Run.finish S c).eval r with ⟨e | s, t⟩
  · obtain ⟨t, f, hleads, hactive, hB, rfl⟩ := hfinish.error hf
    refine .inr ⟨t, f, hleads, hactive, hB, ?_⟩
    simp only [bind, Except.bind, hf]
    rfl
  · refine .inl ⟨s, t, ?_, hfinish.ok hf⟩
    simp only [bind, Except.bind, hf]
    rfl

/-- A run that has started is going, with the linear system and the state that its strategy has made
for the first residual, and without a Jacobian. -/
theorem Run.start_going (hc : c.Fits P m) (h : Run.start S c world = .ok r) :
    r.Going c P m ∧ r.work.jacobian = none ∧
      S.start c c.problem.guess.entries r.fu = .ok (r.work.system, r.ext) := by
  obtain ⟨fu, work, system, ext, started⟩ := Run.start_ok h
  have hguess : c.problem.guess.entries.Fits P c.problem.size := ⟨rfl, hc.guess⟩
  obtain ⟨hfu, hjacobian, -⟩ := (Run.evaluate_fits hc hguess _).ok started.residual
  rw [started.eq]
  exact ⟨⟨⟨hguess, hguess, hfu, ⟨hguess, hguess⟩, rfl⟩, rfl, .inl rfl⟩, hjacobian, started.prepared⟩

end Contained

end RootFinding
