import RootFinding.Proofs.Steps

/-!
# Starts

What a run has before its first step: the guess with its residual, and the linear system and the
state that its strategy has prepared for them.

* `Run.start_prepared`: the state of a run at its start is what its strategy makes of the guess.
* `prepare_ok`: what the strategies share that prepare a linear system and a scheme.
* `Newton.Prepared`, `PseudoTransient.Prepared`, `TrustRegion.Prepared`,
  `LevenbergMarquardt.Prepared`, `SpectralResidual.Prepared`: what each of them prepares, by its
  lemma `start_ok`.
-/

namespace RootFinding

open Action

variable {σ R K X : Type} [Scalar R]

/-! ## Runs -/

namespace Run

variable [Entry R K] {S : Strategy σ R K X} {c : Setup σ R K} {world : σ} {r : Run σ R K X}

/-- All of a run at its start but the residual, the workspace and the state of its strategy. -/
theorem start_eq (h : start S c world = .ok r) : r = ofStart c r.work r.fu r.ext := by
  obtain ⟨fu, work, system, ext, started⟩ := start_ok h
  rw [started.eq]
  rfl

theorem start_u (h : start S c world = .ok r) : r.u = c.problem.guess.entries :=
  congrArg (·.u) (start_eq h)

theorem start_steps (h : start S c world = .ok r) : r.steps = 0 :=
  congrArg (·.steps) (start_eq h)

theorem start_checker (h : start S c world = .ok r) : r.checker =
    .ofStart c.options.termination r.fu r.u c.options.abstol c.options.reltol c.options.norm := by
  rw [start_u h]
  exact congrArg (·.checker) (start_eq h)

theorem start_answered (h : start S c world = .ok r) : c.problem.Answered r.u r.fu := by
  obtain ⟨fu, work, system, ext, started⟩ := start_ok h
  rw [started.eq]
  exact ⟨_, _, started.residual⟩

/-- The linear system and the state of a run at its start are those that its strategy has prepared. -/
theorem start_prepared (h : start S c world = .ok r) :
    S.start c c.problem.guess.entries r.fu = .ok (r.work.system, r.ext) := by
  obtain ⟨fu, work, system, ext, started⟩ := start_ok h
  rw [started.eq]
  exact started.prepared

end Run

/-! ## Strategies -/

theorem requireSquare_ok {name : String} {u fu : Vec K} (h : requireSquare name u fu = .ok ()) :
    fu.size = u.size := by
  unfold requireSquare at h
  split at h
  next hsize => exact hsize
  next => cases h

theorem prepare_ok {p : Problem σ R K} {name : String} {choice : SystemChoice R}
    {concrete : Bool} {system : LinearSystem R K} {scheme : Scheme}
    (h : prepare p name choice concrete = .ok (system, scheme)) :
    choice.system (p.jacobian.isNone && !concrete) = .ok system := by
  obtain ⟨_, -, h⟩ := Fault.bind_ok h
  obtain ⟨_, hsystem, h⟩ := Fault.bind_ok h
  cases h
  exact hsystem

variable [Entry R K] {c : Setup σ R K} {u fu : Vec K} {system : LinearSystem R K}

/-- What a Newton iteration prepares for a guess `u` with the residual `fu`. -/
structure Newton.Prepared (a : Newton σ R K) (c : Setup σ R K) (u fu : Vec K)
    (system : LinearSystem R K) (ext : State σ R K) : Prop where
  square : a.form = .direct → fu.size = u.size
  search : a.search.search = .ok ext.search
  system : a.choice.system (c.problem.isMatrixFree ext.jacobians) = .ok system
  concrete : ext.jacobians.concrete = a.concrete
  reuse : ext.jacobians.reuse = a.reuse
  reuseTolerance : ext.jacobians.reuseTolerance = a.reuseTolerance
  way : ext.way = u.zerosLike
  previousNorm : ext.previousNorm = c.options.norm fu

theorem Newton.start_ok {a : Newton σ R K} {ext : State σ R K}
    (h : a.start c u fu = .ok (system, ext)) : a.Prepared c u fu system ext := by
  obtain ⟨hsquare, h⟩ := Fault.guard_ok h
  obtain ⟨scheme, -, h⟩ := Fault.bind_ok h
  obtain ⟨search, hsearch, h⟩ := Fault.bind_ok h
  obtain ⟨system', hsystem, h⟩ := Fault.bind_ok h
  cases h
  have hsearch : a.search.search = .ok search := by
    unfold validate at hsearch
    split at hsearch
    · cases hsearch
    · exact hsearch
  exact ⟨fun hdirect => requireSquare_ok (hsquare hdirect), hsearch, hsystem, rfl, rfl, rfl, rfl, rfl⟩

/-- What pseudo-transient continuation prepares for a guess `u` with the residual `fu`. -/
structure PseudoTransient.Prepared (a : PseudoTransient R) (c : Setup σ R K) (u fu : Vec K)
    (system : LinearSystem R K) (ext : State R K) : Prop where
  square : fu.size = u.size
  system : a.choice.system (c.problem.isMatrixFree ext.jacobians) = .ok system
  controller : ext.controller = a.controller
  alpha : ext.alpha = a.initial
  alphaPrevious : ext.alphaPrevious = a.initial
  beforePrevious : ext.beforePrevious = u

omit [Entry R K] in
theorem PseudoTransient.start_ok {a : PseudoTransient R} {ext : State R K}
    (h : a.start c u fu = .ok (system, ext)) : a.Prepared c u fu system ext := by
  obtain ⟨_, hsquare, h⟩ := Fault.bind_ok h
  obtain ⟨⟨system', scheme⟩, hprepare, h⟩ := Fault.bind_ok h
  cases h
  exact ⟨requireSquare_ok hsquare, prepare_ok hprepare, rfl, rfl, rfl, rfl⟩

/-- What a trust region method prepares for a guess `u` with the residual `fu`. -/
structure TrustRegion.Prepared (a : TrustRegion R) (c : Setup σ R K) (u fu : Vec K)
    (system : LinearSystem R K) (ext : State R K) : Prop where
  system : a.choice.system (c.problem.isMatrixFree ext.jacobians) = .ok system
  concrete : ext.jacobians.concrete = true
  radius : ext.radius = .ofStart a.radius u fu.norm
  renew : ext.renew = true

theorem TrustRegion.start_ok {a : TrustRegion R} {ext : State R K}
    (h : a.start c u fu = .ok (system, ext)) : a.Prepared c u fu system ext := by
  obtain ⟨⟨system', scheme⟩, hprepare, h⟩ := Fault.bind_ok h
  cases h
  exact ⟨prepare_ok hprepare, rfl, rfl, rfl⟩

/-- What a Levenberg-Marquardt iteration prepares for a guess `u` with the residual `fu`. -/
structure LevenbergMarquardt.Prepared (a : LevenbergMarquardt R) (c : Setup σ R K) (u fu : Vec K)
    (system : LinearSystem R K) (ext : State R K) : Prop where
  system : a.choice.system (c.problem.isMatrixFree ext.jacobians) = .ok system
  concrete : ext.jacobians.concrete = true
  damping : ext.damping = a.damping
  factor : ext.factor = a.increase
  scaling : ext.scaling = Vec.replicate u.size (Entry.ofReal a.scaling)
  loss : ext.loss = c.options.norm fu
  velocity : ext.velocity = none
  renew : ext.renew = true

theorem LevenbergMarquardt.start_ok {a : LevenbergMarquardt R} {ext : State R K}
    (h : a.start c u fu = .ok (system, ext)) : a.Prepared c u fu system ext := by
  obtain ⟨⟨system', scheme⟩, hprepare, h⟩ := Fault.bind_ok h
  cases h
  exact ⟨prepare_ok hprepare, rfl, rfl, rfl, rfl, rfl, rfl, rfl⟩

/-- What the spectral residual method prepares for a guess `u` with the residual `fu`. -/
structure SpectralResidual.Prepared (a : SpectralResidual σ R K) (c : Setup σ R K) (u fu : Vec K)
    (system : LinearSystem R K) (ext : State R) : Prop where
  square : fu.size = u.size
  system : system = .fresh none .standard
  spectral : ext.spectral = a.first
  first : ext.first = merit a.exponent (c.options.norm fu)
  history : ext.history = List.replicate a.memory.toNat (merit a.exponent (c.options.norm fu))

omit [Entry R K] in
theorem SpectralResidual.start_ok {a : SpectralResidual σ R K} {ext : State R}
    (h : a.start c u fu = .ok (system, ext)) : a.Prepared c u fu system ext := by
  obtain ⟨_, hsquare, h⟩ := Fault.bind_ok h
  cases h
  exact ⟨requireSquare_ok hsquare, rfl, rfl, rfl, rfl⟩

end RootFinding
