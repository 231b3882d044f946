import RootFinding.Proofs.Forms

/-!
# Problems that answer the same each time

The functions of a problem may see the caller's state. Here they answer without a look at it, and
they leave the part of it alone that a line search of the caller's looks at. Then the answers of all
routines depend on their arguments only, and two solves that share what matters stay alike.

* `Steady part f`: a function of the caller answers without a look at the caller's state, and leaves
  its `part` alone. `Problem.Steady`, `LineSearch.Sees` and `Backend.Steady` say what this means for
  a problem, a line search and the routines behind a linear system. `Backend.Uniform`: what is asked
  of these routines where the start of the iterative method is the same.
* `Workspace.Frame part ρ`: a relation of workspaces that does not look at what such calls change.
  Evaluations, Jacobians and products keep every such relation.
* `Workspace.Matches part`: workspaces that share what the steps of a run look at. Line searches,
  factorisations and solves keep it.
* `Run.Beside`: runs that share everything but their workspaces and the states of their strategies,
  which are related. The loop around the steps of a strategy keeps it.
-/

namespace RootFinding

open Action

variable {σ τ R K X α β : Type}

/-- The function answers without a look at the caller's state, and leaves a part of it alone. -/
def Steady (part : σ → τ) (f : Callable σ R K α β) : Prop :=
  ∀ x, (∀ w w', (f x w).1 = (f x w').1) ∧ ∀ w, part (f x w).2 = part w

/-- So do all functions of a problem. -/
structure Problem.Steady (p : Problem σ R K) (part : σ → τ) : Prop where
  returning : ∀ f, p.residual = .returning f → RootFinding.Steady part f
  filling : ∀ f, p.residual = .filling f → RootFinding.Steady part f
  jacobian : ∀ f, p.jacobian = some f → RootFinding.Steady part f

/-- A problem whose functions leave the caller's state as it is and do not look at it. -/
theorem Problem.steady_of_pure {p : Problem σ R K}
    {f : Tensor K → Except (Thrown R K) (Tensor K)}
    {g : Tensor K → Except (Thrown R K) (JacobianValue K)}
    (hresidual : p.residual = .returning fun t w => (f t, w))
    (hjacobian : p.jacobian = some fun t w => (g t, w)) : p.Steady (id : σ → σ) := by
  constructor
  · intro f' hf'
    obtain rfl := ResidualFunction.returning.inj (hresidual.symm.trans hf')
    exact fun _ => ⟨fun _ _ => rfl, fun _ => rfl⟩
  · intro f' hf'
    cases hresidual.symm.trans hf'
  · intro g' hg'
    obtain rfl := Option.some.inj (hjacobian.symm.trans hg')
    exact fun _ => ⟨fun _ _ => rfl, fun _ => rfl⟩

/-- A search of the caller's looks at a part of his state only. -/
def LineSearch.Sees (s : LineSearch σ R K) (part : σ → τ) : Prop :=
  ∀ f, s.method = .custom f → ∀ x w w', part w = part w' →
    (f x w).1 = (f x w').1 ∧ part (f x w).2 = part (f x w').2

/-- The iterative method reaches the workspace through the products with the matrix only. -/
structure Backend.Uniform (B : Backend σ R K) : Prop where
  gmres {ρ : Workspace σ R K → Workspace σ R K → Prop} {apply : Vec K → Work σ R K (Vec K)} :
    (∀ v, Respects ρ (apply v)) → ∀ s b start, Respects ρ (B.gmres apply s b start)

/-- What the iterative method answers depends on the products with the matrix and on the right-hand
side, not on the start that it is offered. -/
structure Backend.Steady (B : Backend σ R K) : Prop where
  gmres {ρ : Workspace σ R K → Workspace σ R K → Prop} {apply : Vec K → Work σ R K (Vec K)} :
    (∀ v, Respects ρ (apply v)) → ∀ s b start start' w w', ρ w w' →
      Alike ρ (B.gmres apply s b start) (B.gmres apply s b start') w w'

/-! ## Relations of workspaces -/

namespace Workspace

/-- A relation of workspaces that does not look at what the evaluations of a steady problem change:
the counters and warnings, and the caller's state but for a part of it. -/
structure Frame (part : σ → τ) (ρ : Workspace σ R K → Workspace σ R K → Prop) : Prop where
  change : ∀ w w' world world' evaluations evaluations' shape shape' warnings warnings', ρ w w' →
    part world = part w.world → part world' = part w'.world →
      ρ { w with world, evaluations, residualShape := shape, warnings }
        { w' with
          world := world', evaluations := evaluations', residualShape := shape',
          warnings := warnings' }

variable {part : σ → τ} {ρ : Workspace σ R K → Workspace σ R K → Prop}

theorem Frame.hereditary (h : Frame part ρ) :
    Work.Hereditary fun α (a : Work σ R K α) => Respects ρ a where
  pure := respects_pure
  bind := Respects.bind
  throw := respects_throw
  attempt ha := fun w w' hw => (ha w w' hw).attempt
  mapError _ ha := fun w w' hw => (ha w w' hw).mapError
  warn _ := fun w w' hw => alike_modify (h.change w w' _ _ _ _ _ _ _ _ hw rfl rfl)

theorem Frame.call (h : Frame part ρ) {f : Callable σ R K α β} (hf : RootFinding.Steady part f)
    (x : α) : Respects ρ (Workspace.call f x) := by
  intro w w' hw
  obtain ⟨hanswer, hpart⟩ := hf x
  exact ⟨hanswer w.world w'.world,
    h.change w w' _ _ _ _ _ _ _ _ hw (hpart w.world) (hpart w'.world)⟩

/-- Any two workspaces. -/
theorem frame_true : Frame part fun _ _ : Workspace σ R K => True := ⟨by simp⟩

end Workspace

open Workspace

section Problems

variable [Scalar R] [Entry R K] {part : σ → τ} {p : Problem σ R K}
  {ρ : Workspace σ R K → Workspace σ R K → Prop}

theorem Problem.Steady.evaluate (hp : p.Steady part) (hρ : Frame part ρ) (u : Vec K) :
    Respects ρ (p.evaluate u) :=
  evaluate_of hρ.hereditary
    (fun w w' hw => alike_modify (hρ.change w w' _ _ _ _ _ _ _ _ hw rfl rfl))
    (fun _ w w' hw => alike_modify (hρ.change w w' _ _ _ _ _ _ _ _ hw rfl rfl))
    (fun f hf => hρ.call (hp.returning f hf)) (fun f hf => hρ.call (hp.filling f hf)) u

/-- An evaluation answers the same each time. -/
theorem Problem.Steady.answered_inj (hp : p.Steady part) {u f g : Vec K} (hf : p.Answered u f)
    (hg : p.Answered u g) : f = g := by
  obtain ⟨w, v, hw⟩ := hf
  obtain ⟨w', v', hw'⟩ := hg
  have hsame := (hp.evaluate frame_true u w w' trivial).1
  rw [hw, hw'] at hsame
  exact Except.ok.inj hsame

theorem Problem.Steady.rawJacobian (hp : p.Steady part) (hρ : Frame part ρ)
    (s : JacobianSettings R) (u : Vec K) (fu : Option (Vec K)) :
    Respects ρ (p.rawJacobian s u fu) :=
  rawJacobian_of hρ.hereditary.toStraight (hp.evaluate hρ) (fun jac hjac x => hρ.call (hp.jacobian jac hjac) x)
    s u fu

end Problems

/-! ## Workspaces that match -/

namespace Workspace

/-- What the steps of a run look at: a part of the caller's state, the stored Jacobian, and the
linear system without its last solution and the number of its factorisations. -/
def shared (part : σ → τ) (w : Workspace σ R K) : τ × Option (Matrix R K) × LinearSystem R K :=
  (part w.world, w.jacobian, { w.system with last := none, factorizations := 0 })

def Matches (part : σ → τ) (w w' : Workspace σ R K) : Prop := w'.shared part = w.shared part

variable {part : σ → τ} {w w' : Workspace σ R K}

theorem Matches.refl (w : Workspace σ R K) : w.Matches part w := rfl

theorem Matches.trans {w₁ w₂ w₃ : Workspace σ R K} (h : w₁.Matches part w₂)
    (h' : w₂.Matches part w₃) : w₁.Matches part w₃ :=
  Eq.trans h' h

theorem Matches.world (h : w.Matches part w') : part w.world = part w'.world :=
  (congrArg (·.1) h).symm

theorem Matches.jacobian (h : w.Matches part w') : w'.jacobian = w.jacobian := congrArg (·.2.1) h

theorem Matches.method (h : w.Matches part w') : w'.system.method = w.system.method :=
  congrArg (·.2.2.method) h

theorem Matches.krylov (h : w.Matches part w') : w'.system.krylov = w.system.krylov :=
  congrArg (·.2.2.krylov) h

theorem Matches.matrix (h : w.Matches part w') : w'.system.matrix = w.system.matrix :=
  congrArg (·.2.2.matrix) h

theorem Matches.factors (h : w.Matches part w') : w'.system.factors = w.system.factors :=
  congrArg (·.2.2.factors) h

theorem Matches.solves (h : w.Matches part w') : w'.system.solves = w.system.solves :=
  congrArg (·.2.2.solves) h

theorem matches_of (world : part w.world = part w'.world) (jacobian : w'.jacobian = w.jacobian)
    (method : w'.system.method = w.system.method) (krylov : w'.system.krylov = w.system.krylov)
    (matrix : w'.system.matrix = w.system.matrix) (factors : w'.system.factors = w.system.factors)
    (solves : w'.system.solves = w.system.solves) : w.Matches part w' := by
  simp only [Matches, shared, world, jacobian, method, krylov, matrix, factors, solves]

theorem frame_matches : Frame part (Matches part : Workspace σ R K → Workspace σ R K → Prop) where
  change _ _ _ _ _ _ _ _ _ _ h hworld hworld' :=
    matches_of (hworld.trans (h.world.trans hworld'.symm)) h.jacobian h.method h.krylov h.matrix
      h.factors h.solves

/-- Both workspaces match a third one. -/
theorem frame_pinned (v : Workspace σ R K) :
    Frame part fun w w' : Workspace σ R K => v.Matches part w ∧ v.Matches part w' where
  change _ _ _ _ _ _ _ _ _ _ h hworld hworld' :=
    ⟨frame_matches.change v _ _ _ _ _ _ _ _ _ h.1 rfl hworld,
      frame_matches.change v _ _ _ _ _ _ _ _ _ h.2 rfl hworld'⟩

/-- What keeps every frame changes nothing that the steps of a run look at. -/
theorem matches_of_frames {a : Work σ R K α}
    (h : ∀ ρ : Workspace σ R K → Workspace σ R K → Prop, Frame part ρ → Respects ρ a)
    (w : Workspace σ R K) : w.Matches part (a.eval w).2 :=
  (h _ (frame_pinned w) w w ⟨.refl w, .refl w⟩).2.1

end Workspace

/-! ## Routines -/

variable [Scalar R] [Entry R K]

section Hereditary

variable {Φ : ∀ α : Type, Work σ R K α → Prop} {F : Vec K → Work σ R K (Vec K)}

theorem Difference.along_of (hΦ : Work.Straight Φ) (hF : ∀ v, Φ (Vec K) (F v)) (s : Scheme)
    (x : Vec R) (f0 p : Vec K) : Φ (Vec K) (along F s x f0 p) := by
  unfold along
  split
  · exact hΦ.pure _
  · cases s with
    | forward => exact hΦ.bind (hF _) fun _ => hΦ.bind (hΦ.ofFault _) fun _ => hΦ.pure _
    | central =>
      exact hΦ.bind (hF _) fun _ => hΦ.bind (hF _) fun _ => hΦ.bind (hΦ.ofFault _) fun _ =>
        hΦ.pure _
    | complexStep => exact hΦ.bind (hF _) fun _ => hΦ.pure _

theorem Operator.apply_of (hΦ : Work.Straight Φ) (hF : ∀ v, Φ (Vec K) (F v)) (A : Operator R K)
    (v : Vec K) : Φ (Vec K) (A.apply F v) := by
  induction A with
  | concrete A => exact hΦ.pure _
  | derivative s x f0 =>
    exact hΦ.bind (Difference.along_of hΦ hF s x f0 v) fun _ => hΦ.guard (hΦ.throw _) (hΦ.pure _)
  | shifted A shift ih => exact hΦ.bind ih fun _ => hΦ.ofFault _

theorem Matrix.apply_of (hΦ : Work.Straight Φ) (hF : ∀ v, Φ (Vec K) (F v)) (A : Matrix R K)
    (v : Vec K) : Φ (Vec K) (A.apply F v) := by
  cases A with
  | dense A | sparse A => exact hΦ.guard (hΦ.throw _) (hΦ.pure _)
  | free A => exact hΦ.guard (hΦ.throw _) (Operator.apply_of hΦ hF A v)

end Hereditary

section Gmres

variable {Φ : ∀ α : Type, Work σ R K α → Prop} {apply : Vec K → Work σ R K (Vec K)}

namespace Gmres

theorem run_of (hΦ : Sequential Φ) (hA : ∀ v, Φ (Vec K) (apply v)) (tolerance : R) (n : Nat)
    (c : Cycle R K) : Φ (Cycle R K) (c.run apply tolerance n) := by
  induction n generalizing c with
  | zero => exact hΦ.pure _
  | succ n ih =>
    refine hΦ.bind (hA _) fun w => ?_
    dsimp only
    split
    · exact hΦ.pure _
    · exact ih _

theorem cycles_of (hΦ : Sequential Φ) (hA : ∀ v, Φ (Vec K) (apply v)) (b : Vec K)
    (restart limit fuel : Nat) (t : Tolerances R) (x r : Vec K) :
    Φ (Vec K × Outcome) (cycles apply b restart limit fuel t x r) := by
  induction fuel generalizing t x r with
  | zero => exact hΦ.pure _
  | succ fuel ih =>
    refine hΦ.bind (run_of hΦ hA _ _ _) fun c => hΦ.bind (hA _) fun product => ?_
    dsimp only
    split
    · exact hΦ.pure _
    · split
      · exact hΦ.pure _
      · exact ih _ _ _

/-- The iterative method gives no warning, so it has every property that its products have and that
sequences and errors inherit. -/
theorem solve_of (hΦ : Sequential Φ) (hthrow : ∀ {α : Type} (e : Thrown R K), Φ α (throw e))
    (hA : ∀ v, Φ (Vec K) (apply v)) (s : KrylovSettings R) (b : Vec K) (start : Option (Vec K)) :
    Φ (Vec K × Outcome) (solve apply s b start) := by
  have hguard : ∀ {p : Prop} [Decidable p] {a : Work σ R K PUnit}
      {b : Work σ R K (Vec K × Outcome)}, Φ PUnit a → Φ (Vec K × Outcome) b →
        Φ (Vec K × Outcome) (if p then a >>= fun _ => b else b) := by
    intro p _ a b ha hb
    split
    · exact hΦ.bind ha fun _ => hb
    · exact hb
  have hiterate : ∀ restart limit t x r,
      Φ (Vec K × Outcome) (iterate apply b restart limit t x r) := by
    intro restart limit t x r
    unfold iterate
    split
    · exact hΦ.pure _
    · exact hguard (hthrow _) (cycles_of hΦ hA _ _ _ _ _ _ _)
  unfold solve
  dsimp only
  split
  · exact hΦ.pure _
  · refine hguard (hthrow _) ?_
    split
    · exact hiterate _ _ _ _ _
    · exact hΦ.bind (hA _) fun _ => hiterate _ _ _ _ _

end Gmres

end Gmres

namespace Backend

/-- The iterative method that starts from zero each time. -/
def restarting (B : Backend σ R K) : Backend σ R K :=
  { B with gmres := fun apply s b _ => Gmres.solve apply s b none }

theorem restarting_steady (B : Backend σ R K) : B.restarting.Steady where
  gmres hA s b _ _ w w' hw :=
    Gmres.solve_of (Φ := fun α (a : Work σ R K α) => Respects _ a)
      ⟨respects_pure, Respects.bind⟩ respects_throw hA s b none w w' hw

theorem standard_uniform : (Backend.standard : Backend σ R K).Uniform where
  gmres hA s b start :=
    Gmres.solve_of (Φ := fun α (a : Work σ R K α) => Respects _ a)
      ⟨respects_pure, Respects.bind⟩ respects_throw hA s b start

section Uniform

omit [Scalar R] [Entry R K]

variable {B : Backend σ R K}

/-- What depends on the products only touches no more than they do. -/
theorem Uniform.frames (hB : B.Uniform) : B.Frames where
  gmres {T π apply} hA s b start := by
    intro w
    let ρ : Workspace σ R K → Workspace σ R K → Prop := fun x y => y = x ∧ π x = π w
    have hρ : ∀ v, Respects ρ (apply v) := by
      rintro v x _ ⟨rfl, hx⟩
      exact ⟨rfl, rfl, (hA v _).trans hx⟩
    exact (hB.gmres hρ s b start w w ⟨rfl, rfl⟩).2.2

theorem Steady.uniform (hB : B.Steady) : B.Uniform :=
  ⟨fun hA s b start w w' hw => hB.gmres hA s b start start w w' hw⟩

theorem Steady.frames (hB : B.Steady) : B.Frames := hB.uniform.frames

end Uniform

end Backend

section Steps

variable {part : σ → τ} {p : Problem σ R K} {B : Backend σ R K} {w w' v : Workspace σ R K}

open Workspace

/-- The making of a Jacobian looks at the scheme only, and at whether the Jacobian is formed. -/
theorem Problem.jacobianAt_congr (p : Problem σ R K) {s s' : JacobianSettings R}
    (hscheme : s'.scheme = s.scheme) (hconcrete : s'.concrete = s.concrete) (u : Vec K)
    (fu : Option (Vec K)) : p.jacobianAt s' u fu = p.jacobianAt s u fu := by
  unfold jacobianAt Problem.rawJacobian
  rw [hscheme, hconcrete]

theorem Problem.Steady.jacobianAt (hp : p.Steady part) (s : JacobianSettings R) (u : Vec K)
    (fu : Option (Vec K)) : Respects (Matches part) (p.jacobianAt s u fu) := by
  refine (frame_matches.hereditary.mapError _ (hp.rawJacobian frame_matches s u fu)).bind
    fun J => ?_
  split
  · exact respects_throw _
  · refine Respects.bind (fun w w' hw => ?_) fun _ => respects_pure _
    exact alike_modify
      (matches_of hw.world rfl hw.method hw.krylov hw.matrix hw.factors hw.solves)

/-- A Jacobian that is made once more is the same, and no more than it is stored. -/
theorem Problem.Steady.jacobianAt_again (hp : p.Steady part) {s : JacobianSettings R} {u : Vec K}
    {fu : Option (Vec K)} {J : Matrix R K} (h : (p.jacobianAt s u fu).eval w = (.ok J, v))
    (w' : Workspace σ R K) :
    ∃ v', (p.jacobianAt s u fu).eval w' = (.ok J, v') ∧
      Matches part { w' with jacobian := some J } v' := by
  have hraw : ∀ ρ : Workspace σ R K → Workspace σ R K → Prop, Frame part ρ → Respects ρ
      ((p.rawJacobian s u fu).mapError fun e => Thrown.failure e.ofDifferentiation) := fun ρ hρ =>
    hρ.hereditary.mapError _ (hp.rawJacobian hρ s u fu)
  obtain ⟨J', v₁, hJ', hstored⟩ := eval_bind_ok.1 h
  obtain ⟨v₁', hagain, -⟩ := (hraw _ frame_true w w' trivial).eval hJ'
  have hkept : w'.Matches part v₁' := by
    have := matches_of_frames hraw w'
    rwa [hagain] at this
  unfold Problem.jacobianAt
  cases hdefect : jacobianDefect? J' (fu.map Vec.size) u.size with
  | some f =>
    rw [hdefect] at hstored
    cases hstored
  | none =>
    rw [hdefect] at hstored
    obtain rfl : J' = J := Except.ok.inj (congrArg (·.1) hstored)
    refine ⟨{ v₁' with jacobian := some J', jacobians := v₁'.jacobians + 1 }, ?_, ?_⟩
    · rw [eval_bind, hagain]
      dsimp only
      rw [hdefect]
      rfl
    · exact matches_of hkept.world rfl hkept.method hkept.krylov hkept.matrix hkept.factors
        hkept.solves

theorem LineSearch.Sees.search {s : LineSearch σ R K} (hs : s.Sees part) (hp : p.Steady part)
    (x : SearchPoint K) : Respects (Matches part) (s.search p.evaluate x) := by
  refine LineSearch.search_of frame_matches.hereditary (hp.evaluate frame_matches) s
    (fun f hf x => ?_) x
  intro w w' hw
  obtain ⟨hanswer, hpart⟩ := hs f hf x w.world w'.world hw.world
  refine ⟨congrArg Except.ok hanswer, ?_⟩
  exact matches_of hpart hw.jacobian hw.method hw.krylov hw.matrix hw.factors hw.solves

namespace LinearSystem

/-- A relation of workspaces that does not look at the last solution and the number of
factorisations. -/
structure Uncounted (ρ : Workspace σ R K → Workspace σ R K → Prop) : Prop where
  factors (f : Factors K) : Respects ρ (change fun s => { s with factors := some f })
  last (l : Option (Vec K) → Option (Vec K)) :
    Respects ρ (change fun s => { s with last := l s.last })
  count : Respects ρ (change fun s => { s with factorizations := s.factorizations + 1 })

omit [Entry R K] in
/-- A factorisation ends alike from workspaces that choose the same method. -/
theorem factorize_alike {ρ : Workspace σ R K → Workspace σ R K → Prop} (hρ : Uncounted ρ)
    {A : Matrix R K}
    (hmethod : v.system.method.getD (SolveMethod.forMatrix A) =
      w.system.method.getD (SolveMethod.forMatrix A))
    (hset : ∀ M, ρ
      { w with system := { w.system with method := some M, matrix := some A, factors := none } }
      { v with
        system := { v.system with method := some M, matrix := some A, factors := none } }) :
    Alike ρ (factorize B A) (factorize B A) w v := by
  have hkeep : ∀ f, Respects ρ (keep f : Work σ R K Unit) := fun f =>
    (hρ.factors f).bind fun _ => hρ.count
  unfold factorize
  simp only [alike_get_bind, hmethod]
  refine Alike.bind (alike_modify (hset _) : Alike ρ _ _ w v) (fun _ x y h => ?_) (fun _ _ h => h)
  generalize w.system.method.getD (SolveMethod.forMatrix A) = M
  cases M with
  | lu =>
    refine ((respects_ofFault _).bind fun D => ?_) x y h
    split
    · exact respects_throw _
    · exact hkeep _
  | splu =>
    dsimp only
    unfold factorizeSparse
    cases A.toDense? with
    | none => exact respects_throw _ x y h
    | some D =>
      refine Respects.guard (respects_throw _) ?_ x y h
      split
      · exact respects_throw _
      · exact hkeep _
  | gmres => exact hρ.last _ x y h
  | lstsq => exact ((respects_ofFault _).bind fun D => hρ.factors _) x y h

omit [Scalar R] [Entry R K] in
theorem uncounted_matches :
    Uncounted (Matches part : Workspace σ R K → Workspace σ R K → Prop) where
  factors _ _ _ h := alike_modify
    (matches_of h.world h.jacobian h.method h.krylov h.matrix rfl h.solves)
  last _ _ _ h := alike_modify
    (matches_of h.world h.jacobian h.method h.krylov h.matrix h.factors h.solves)
  count _ _ h := alike_modify
    (matches_of h.world h.jacobian h.method h.krylov h.matrix h.factors h.solves)

omit [Entry R K] in
theorem factorize_matches (B : Backend σ R K) (A : Matrix R K) :
    Respects (Matches part) (factorize B A) := by
  intro w w' h
  refine factorize_alike uncounted_matches (by rw [h.method]) fun M => ?_
  exact matches_of h.world h.jacobian rfl h.krylov rfl rfl h.solves

/-- The linear system is as a factorisation of the matrix `A` leaves it. -/
def Factorized (B : Backend σ R K) (A : Matrix R K) (s : LinearSystem R K) : Prop :=
  ∃ w w' : Workspace σ R K, (factorize B A).eval w = (.ok (), w') ∧
    s.method = w'.system.method ∧ s.matrix = w'.system.matrix ∧ s.factors = w'.system.factors

omit [Entry R K] in
/-- A matrix that is factorised once more leaves its linear system as it is. -/
theorem Factorized.again {A : Matrix R K} (h : Factorized B A v.system) :
    ∃ v', (factorize B A).eval v = (.ok (), v') ∧ Matches part v v' := by
  obtain ⟨w, w', hw, hmethod, hmatrix, hfactors⟩ := h
  obtain ⟨factors, -, hw'⟩ := (factorize_spec B A w).ok hw
  -- the first workspace shows what becomes of the system, the second one what stays
  let ρ : Workspace σ R K → Workspace σ R K → Prop := fun x y =>
    y.system.method = x.system.method ∧ y.system.matrix = x.system.matrix ∧
      y.system.factors = x.system.factors ∧
      (part y.world, y.jacobian, y.system.krylov, y.system.solves) =
        (part v.world, v.jacobian, v.system.krylov, v.system.solves)
  have hρ : Uncounted ρ :=
    ⟨fun _ _ _ h => alike_modify ⟨h.1, h.2.1, rfl, h.2.2.2⟩, fun _ _ _ h => alike_modify h,
      fun _ _ h => alike_modify h⟩
  have hchosen : v.system.method.getD (SolveMethod.forMatrix A) =
      w.system.method.getD (SolveMethod.forMatrix A) := by
    rw [hmethod, hw', factorized_method]
    rfl
  obtain ⟨v', hv', hmethod', hmatrix', hfactors', hrest⟩ :=
    (factorize_alike hρ hchosen fun M => ⟨rfl, rfl, rfl, rfl⟩).eval hw
  simp only [Prod.mk.injEq] at hrest
  obtain ⟨hworld, hjacobian, hkrylov, hsolves⟩ := hrest
  exact ⟨v', hv', matches_of hworld.symm hjacobian (hmethod'.trans hmethod.symm) hkrylov
    (hmatrix'.trans hmatrix.symm) (hfactors'.trans hfactors.symm) hsolves⟩

/-- A solve ends alike from workspaces that share what it reads of the linear system. -/
theorem solve_respects {ρ : Workspace σ R K → Workspace σ R K → Prop}
    {F : Vec K → Work σ R K (Vec K)} (hρ : Uncounted ρ) (hwarn : ∀ text, Respects ρ (warn text : Work σ R K Unit))
    (hcount : Respects ρ (change fun s => { s with solves := s.solves + 1 } : Work σ R K Unit))
    (hshared : ∀ w w', ρ w w' → w'.system.method = w.system.method ∧
      w'.system.krylov = w.system.krylov ∧ w'.system.matrix = w.system.matrix ∧
      w'.system.factors = w.system.factors)
    (hgmres : ∀ (A : Matrix R K) s b g w w', ρ w w' → ∀ x y, ρ x y →
      Alike ρ (B.gmres (A.apply F) s b (w.system.last.map g))
        (B.gmres (A.apply F) s b (w'.system.last.map g)) x y) (b : Vec K) :
    Respects ρ (solve B F b) := by
  have hanswer : ∀ x : Vec K, Respects ρ (answer x : Work σ R K (Vec K)) := fun x =>
    Respects.guard (respects_throw _) ((hρ.last fun _ => some x).bind fun _ => respects_pure _)
  intro w w' h
  obtain ⟨hmethod, hkrylov, hmatrix, hfactors⟩ := hshared w w' h
  simp only [solve, alike_get_bind, hmatrix]
  cases w.system.matrix with
  | none => exact alike_throw h _
  | some A =>
    rw [hmethod]
    refine (hcount w w' h).bind (fun _ x y hxy => ?_) (fun _ _ h => h)
    refine Alike.bind (?_ : Alike ρ _ _ x y) (fun b x y h => hanswer b x y h) (fun _ _ h => h)
    cases w.system.method.getD (SolveMethod.forMatrix A) with
    | lu | splu | lstsq =>
      simp only [solveBy, hfactors]
      exact respects_ofFault _ x y hxy
    | gmres =>
      simp only [solveBy, solveIteratively, hkrylov]
      by_cases hunfit : (!A.isSquare || decide (b.size ≠ A.height)) = true
      · rw [if_pos hunfit, if_pos hunfit]
        exact ⟨rfl, hxy⟩
      · rw [if_neg hunfit, if_neg hunfit]
        refine (hgmres A _ _ _ w w' h x y hxy).bind (fun r x y h => ?_) (fun _ _ h => h)
        rcases r with ⟨z, _ | n⟩
        · exact alike_pure h z
        · exact ((hwarn _).bind fun _ => respects_pure z) x y h

theorem solve_matches (hp : p.Steady part) (hB : B.Steady) (b : Vec K) :
    Respects (Matches part) (solve B p.evaluate b) := by
  have happly : ∀ A : Matrix R K, ∀ v, Respects (Matches part) (A.apply p.evaluate v) := fun A v =>
    A.apply_of frame_matches.hereditary.toStraight (hp.evaluate frame_matches) v
  refine solve_respects uncounted_matches frame_matches.hereditary.warn (fun _ _ h => alike_modify
    (matches_of h.world h.jacobian h.method h.krylov h.matrix h.factors
      (congrArg (· + 1) h.solves))) (fun _ _ h => ⟨h.method, h.krylov, h.matrix, h.factors⟩) ?_ b
  intro A s b g w w' _
  exact hB.gmres (happly A) s b _ _

end LinearSystem

end Steps

/-! ## Runs -/

namespace Run

/-- Runs that share everything but their workspaces and the states of their strategies. -/
def Beside (ρ : Workspace σ R K → Workspace σ R K → Prop) (ξ : X → X → Prop)
    (r t : Run σ R K X) : Prop :=
  ∃ work ext, ρ r.work work ∧ ξ r.ext ext ∧ t = { r with work, ext }

variable {ρ : Workspace σ R K → Workspace σ R K → Prop} {ξ : X → X → Prop} {S S' : Strategy σ R K X}
  {c : Setup σ R K} {r s t : Run σ R K X}

section Constructs

omit [Scalar R] [Entry R K]

theorem Beside.work (h : Beside ρ ξ r t) : ρ r.work t.work := by
  obtain ⟨work, ext, hwork, -, rfl⟩ := h
  exact hwork

theorem Beside.ext (h : Beside ρ ξ r t) : ξ r.ext t.ext := by
  obtain ⟨work, ext, -, hext, rfl⟩ := h
  exact hext

theorem beside_onWork {a : Work σ R K α} (h : Respects ρ a) :
    Respects (Beside ρ ξ) (onWork a : Stepping σ R K X α) := by
  intro r t hr
  obtain ⟨work, ext, hwork, hext, rfl⟩ := hr
  exact (h _ _ hwork).within fun w w' hw => ⟨w', ext, hw, hext, rfl⟩

/-- A change of a run that neither reads nor writes the workspace and the strategy's state. -/
theorem beside_modify {f : Run σ R K X → Run σ R K X}
    (hf : ∀ work ext r, f { r with work, ext } = { f r with work, ext }) :
    Respects (Beside ρ ξ) (modify f : Stepping σ R K X PUnit) := by
  intro r t hr
  obtain ⟨work, ext, hwork, hext, rfl⟩ := hr
  have hkept : (f r).work = r.work ∧ (f r).ext = r.ext :=
    ⟨(congrArg Run.work (hf r.work r.ext r)).trans rfl,
      (congrArg Run.ext (hf r.work r.ext r)).trans rfl⟩
  exact alike_modify ⟨work, ext, by rwa [hkept.1], by rwa [hkept.2], hf work ext r⟩

theorem alike_update {f g : X → X} (hr : Beside ρ ξ r t) (h : ξ (f r.ext) (g t.ext)) :
    Alike (Beside ρ ξ) (update f : Stepping σ R K X Unit) (update g) r t := by
  obtain ⟨work, ext, hwork, -, rfl⟩ := hr
  exact alike_modify ⟨work, g ext, hwork, h, rfl⟩

theorem beside_moveTo (u fu : Vec K) :
    Respects (Beside ρ ξ) (moveTo u fu : Stepping σ R K X Unit) :=
  beside_modify fun _ _ _ => rfl

/-- An action that reads the run, but not the workspace and the strategy's state. -/
theorem beside_get_bind {f : Run σ R K X → Stepping σ R K X α}
    (hf : ∀ work ext r, f { r with work, ext } = f r)
    (h : ∀ r, Respects (Beside ρ ξ) (f r)) : Respects (Beside ρ ξ) (get >>= f) := by
  intro r t hr
  obtain ⟨work, ext, hwork, hext, rfl⟩ := hr
  rw [alike_get_bind, hf work ext r]
  exact h r _ _ ⟨work, ext, hwork, hext, rfl⟩

end Constructs

omit [Entry R K] in
theorem beside_print (style text : String) :
    Respects (Beside ρ ξ) (print style text : Stepping σ R K X Unit) :=
  beside_modify fun _ _ _ => rfl

theorem beside_check : Respects (Beside ρ ξ) (check : Stepping σ R K X Bool) := by
  refine beside_get_bind (fun _ _ _ => rfl) fun r => Respects.bind ?_ fun converged => ?_
  · intro r' t hr
    obtain ⟨work, ext, hwork, hext, rfl⟩ := hr
    exact ⟨rfl, work, ext, hwork, hext, rfl⟩
  · exact Respects.guard (beside_modify fun _ _ _ => rfl) (respects_pure _)

theorem beside_endWith (hF : ∀ u, Respects ρ (c.problem.evaluate u)) (f : Failure R K) :
    Respects (Beside ρ ξ) (endWith c f : Stepping σ R K X Unit) := by
  have hfallBack : Respects (Beside ρ ξ) (fallBack c : Stepping σ R K X Unit) := by
    refine beside_get_bind (fun _ _ _ => rfl) fun r => ?_
    dsimp only
    split
    · exact respects_pure _
    · have hattempt : Respects (Beside ρ ξ) (attempt (evaluate c r.checker.fallback) :
          Stepping σ R K X (Except (Thrown R K) (Vec K))) :=
        fun r t hr => (beside_onWork (hF _) r t hr).attempt
      refine hattempt.bind fun x => ?_
      rcases x with (f | e) | fu
      · exact respects_pure _
      · exact respects_throw _
      · exact beside_moveTo _ _
  refine (beside_modify fun _ _ _ => rfl).bind fun _ => (beside_print _ _).bind fun _ => ?_
  refine beside_get_bind (fun _ _ _ => rfl) fun r => ?_
  split
  · exact hfallBack
  · exact respects_pure _

theorem beside_record (c : Setup σ R K) (before : Vec K) :
    Respects (Beside ρ ξ) (record c before : Stepping σ R K X Unit) := by
  refine (beside_modify fun _ _ _ => rfl).bind fun _ => ?_
  refine beside_get_bind (fun _ _ _ => rfl) fun r => ?_
  exact Respects.guard (beside_modify fun _ _ _ => rfl) (beside_print _ _)

/-- Steps of the loop end alike if those of the strategies do. -/
theorem step_alike_beside (hF : ∀ u, Respects ρ (c.problem.evaluate u)) (hr : Beside ρ ξ r t)
    (h : Alike (Beside ρ ξ) (S.step c) (S'.step c) r t) :
    Alike (Beside ρ ξ) (step S c) (step S' c) r t := by
  have hu : t.u = r.u := by
    obtain ⟨work, ext, -, -, rfl⟩ := hr
    rfl
  simp only [step, alike_get_bind, hu]
  refine (Alike.attempt h).bind (fun x s s' hs => ?_) (fun _ _ h => h)
  rcases x with (f | e) | _
  · exact ((beside_endWith hF f).bind fun _ => beside_record c r.u) s s' hs
  · exact alike_throw hs _
  · exact beside_record c r.u s s' hs

/-! ## Steps that have not failed -/

/-- From `r` some number of steps, none of which has failed, leads to another run. The caller may
take further steps when the run has converged. -/
inductive Paces (S : Strategy σ R K X) (c : Setup σ R K) (r : Run σ R K X) :
    Nat → Run σ R K X → Prop
  | refl : Paces S c r 0 r
  | step (n : Nat) (s t : Run σ R K X) : Paces S c r n s → (Run.step S c).eval s = (.ok (), t) →
      t.error = none → Paces S c r (n + 1) t

/-- What holds at the start and after every step that has not failed. -/
theorem Paces.invariant {I : Run σ R K X → Prop} {n : Nat} (h : Paces S c r n s) (hr : I r)
    (hstep : ∀ s t, I s → (Run.step S c).eval s = (.ok (), t) → t.error = none → I t) : I s := by
  induction h with
  | refl => exact hr
  | step n s t _ stepped going ih => exact hstep s t ih stepped going

omit [Scalar R] [Entry R K] in
theorem Beside.error (h : Beside ρ ξ r t) : t.error = r.error := by
  obtain ⟨work, ext, -, -, rfl⟩ := h
  rfl

/-- Runs whose steps end alike take the same number of steps without a failure, and stay beside each
other on the way. -/
theorem paces_beside {I : Run σ R K X → Prop} (hr : Beside ρ ξ r t)
    (hI : ∀ n s, Paces S c r n s → I s)
    (hstep : ∀ s t, I s → Beside ρ ξ s t → Alike (Beside ρ ξ) (Run.step S c) (Run.step S' c) s t)
    (n : Nat) :
    (∀ s, Paces S c r n s → ∃ t', Paces S' c t n t' ∧ Beside ρ ξ s t') ∧
      ∀ t', Paces S' c t n t' → ∃ s, Paces S c r n s ∧ Beside ρ ξ s t' := by
  induction n with
  | zero =>
    constructor
    · intro s hs
      cases hs
      exact ⟨t, .refl, hr⟩
    · intro t' ht'
      cases ht'
      exact ⟨r, .refl, hr⟩
  | succ n ih =>
    constructor
    · intro s' hs'
      cases hs' with
      | step _ s _ before stepped going =>
        obtain ⟨t₁, hpaces, hbeside⟩ := ih.1 s before
        obtain ⟨t', ht', hnext⟩ := (hstep s t₁ (hI n s before) hbeside).eval stepped
        exact ⟨t', .step n t₁ t' hpaces ht' (hnext.error.trans going), hnext⟩
    · intro t' ht'
      cases ht' with
      | step _ t₁ _ before stepped going =>
        obtain ⟨s, hpaces, hbeside⟩ := ih.2 t₁ before
        obtain ⟨hanswer, hnext⟩ := hstep s t₁ (hI n s hpaces) hbeside
        rw [stepped] at hanswer hnext
        have hs' : (Run.step S c).eval s = (.ok (), ((Run.step S c).eval s).2) :=
          Prod.ext hanswer rfl
        exact ⟨_, .step n s _ hpaces hs' (hnext.error.symm.trans going), hnext⟩

end Run

end RootFinding
