import RootFinding.Proofs.Factorization

/-!
# What the shared parts leave alone

Frames of the routines that work on the workspace. An evaluation of the residual reaches neither
the stored Jacobian nor the linear system. A routine that is written over an arbitrary function
(differences along a vector, products with a matrix, the iterative method) leaves alone whatever
that function leaves alone.

* `Problem.evaluate_keeps`: the frame of an evaluation.
* `Backend.Frames`: the routines of a backend touch no more of the workspace than the products
  that they are given. `Backend.standard_frames` proves it of this library's own.
* `LinearSystem.factorize_keeps`: a factorisation leaves the stored Jacobian alone.
  `LinearSystem.solve_keeps`: a solve leaves the matrix alone as well.
-/

namespace RootFinding

open Action

variable {σ R K S T : Type} [Scalar R] [Entry R K] {π : S → T}

/-- The stored Jacobian and the linear system. -/
def Workspace.machinery (w : Workspace σ R K) : Option (Matrix R K) × LinearSystem R K :=
  (w.jacobian, w.system)

theorem Problem.evaluate_keeps (p : Problem σ R K) (u : Vec K) :
    Keeps Workspace.machinery (p.evaluate u) := by
  apply (keeps_ofFault _).bind
  intro x
  apply Keeps.bind (fun _ => rfl)
  intro _
  dsimp only
  split <;> exact Keeps.bind (fun _ => rfl) fun t => Keeps.bind (fun _ => rfl) fun _ =>
    keeps_pure _

/-! ## Routines over a function -/

theorem Difference.along_keeps {F : Difference.Field R K S} (hF : ∀ v, Keeps π (F v)) (s : Scheme)
    (x : Vec R) (f0 p : Vec K) : Keeps π (along F s x f0 p) := by
  unfold along
  split
  · exact keeps_pure _
  · cases s with
    | forward => exact (hF _).bind fun _ => (keeps_ofFault _).bind fun _ => keeps_pure _
    | central =>
      exact (hF _).bind fun _ => (hF _).bind fun _ => (keeps_ofFault _).bind fun _ => keeps_pure _
    | complexStep => exact (hF _).bind fun _ => keeps_pure _

namespace Gmres

theorem run_keeps {apply : Vec K → Action (Thrown R K) S (Vec K)} (hA : ∀ v, Keeps π (apply v))
    (tolerance : R) (n : Nat) (c : Cycle R K) : Keeps π (c.run apply tolerance n) := by
  induction n generalizing c with
  | zero => exact keeps_pure _
  | succ n ih =>
    apply (hA _).bind
    intro w
    dsimp only
    split
    · exact keeps_pure _
    · exact ih _

theorem cycles_keeps {apply : Vec K → Action (Thrown R K) S (Vec K)}
    (hA : ∀ v, Keeps π (apply v)) (b : Vec K) (restart limit fuel : Nat) (t : Tolerances R)
    (x r : Vec K) : Keeps π (cycles apply b restart limit fuel t x r) := by
  induction fuel generalizing t x r with
  | zero => exact keeps_pure _
  | succ fuel ih =>
    apply (run_keeps hA _ _ _).bind
    intro c
    apply (hA _).bind
    intro product
    dsimp only
    split
    · exact keeps_pure _
    · split
      · exact keeps_pure _
      · exact ih _ _ _

theorem iterate_keeps {apply : Vec K → Action (Thrown R K) S (Vec K)}
    (hA : ∀ v, Keeps π (apply v)) (b : Vec K) (restart limit : Nat) (t : Tolerances R)
    (x r : Vec K) : Keeps π (iterate apply b restart limit t x r) := by
  unfold iterate
  split
  · exact keeps_pure _
  · exact Keeps.guard (keeps_throw _) (cycles_keeps hA _ _ _ _ _ _ _)

theorem solve_keeps {apply : Vec K → Action (Thrown R K) S (Vec K)}
    (hA : ∀ v, Keeps π (apply v)) (s : KrylovSettings R) (b : Vec K) (start : Option (Vec K)) :
    Keeps π (solve apply s b start) := by
  unfold solve
  dsimp only
  split
  · exact keeps_pure _
  · refine Keeps.guard (keeps_throw _) ?_
    split
    · exact iterate_keeps hA _ _ _ _ _ _
    · exact (hA _).bind fun _ => iterate_keeps hA _ _ _ _ _ _

end Gmres

/-! ## Matrices and linear systems -/

theorem Operator.apply_keeps {F : Vec K → Work σ R K (Vec K)} {π : Workspace σ R K → T}
    (hF : ∀ v, Keeps π (F v)) (A : Operator R K) (v : Vec K) : Keeps π (A.apply F v) := by
  induction A with
  | concrete A => exact keeps_pure _
  | derivative s x f0 =>
    exact (Difference.along_keeps hF s x f0 v).bind fun _ => Keeps.guard (keeps_throw _) (keeps_pure _)
  | shifted A shift ih => exact ih.bind fun _ => keeps_ofFault _

theorem Matrix.apply_keeps {F : Vec K → Work σ R K (Vec K)} {π : Workspace σ R K → T}
    (hF : ∀ v, Keeps π (F v)) (A : Matrix R K) (v : Vec K) : Keeps π (A.apply F v) := by
  cases A with
  | dense A => exact Keeps.guard (keeps_throw _) (keeps_pure _)
  | sparse A => exact Keeps.guard (keeps_throw _) (keeps_pure _)
  | free A => exact Keeps.guard (keeps_throw _) (A.apply_keeps hF v)

/-- The iterative method of a backend touches no more of the workspace than the products that it is
given. -/
structure Backend.Frames (B : Backend σ R K) : Prop where
  gmres {T : Type} {π : Workspace σ R K → T} {apply : Vec K → Work σ R K (Vec K)} :
    (∀ v, Keeps π (apply v)) → ∀ s b start, Keeps π (B.gmres apply s b start)

theorem Backend.standard_frames : (Backend.standard : Backend σ R K).Frames :=
  ⟨fun hA s b start => Gmres.solve_keeps hA s b start⟩

namespace LinearSystem

/-- A part of the workspace that takes in no more of the linear system than its matrix. -/
def Spared (π : Workspace σ R K → T) : Prop :=
  ∀ w system warnings, system.matrix = w.system.matrix → π { w with system, warnings } = π w

omit [Scalar R] [Entry R K] in
theorem spared_jacobian : Spared (Workspace.jacobian : Workspace σ R K → Option (Matrix R K)) :=
  fun _ _ _ _ => rfl

omit [Scalar R] [Entry R K] in
theorem spared_matrix : Spared fun w : Workspace σ R K => w.system.matrix := fun _ _ _ h => h

omit [Entry R K] in
/-- Past the storing of the matrix a factorisation leaves it alone. -/
theorem factorize_ends_given {π : Workspace σ R K → T} (hπ : Spared π) (B : Backend σ R K)
    (A : Matrix R K) (w : Workspace σ R K) :
    (factorize B A).Ends w (fun _ w' => π w' = π { w with system.matrix := some A })
      (fun _ w' => π w' = π { w with system.matrix := some A }) := by
  have hstored : ∀ system : LinearSystem R K, system.matrix = some A →
      π { w with system } = π { w with system.matrix := some A } :=
    fun system h => hπ { w with system.matrix := some A } system w.warnings h
  refine (factorize_spec B A w).mono (fun _ t ht => ?_) fun _ t ht => ?_
  · obtain ⟨factors, -, rfl⟩ := ht
    exact hstored _ (factorized_holds _ _ _ _).1
  · rw [ht.2]
    exact hstored _ rfl

omit [Entry R K] in
/-- A factorisation leaves the stored Jacobian alone. -/
theorem factorize_keeps (B : Backend σ R K) (A : Matrix R K) :
    Keeps Workspace.jacobian (factorize B A) :=
  keeps_of_ends fun w => factorize_ends_given spared_jacobian B A w

omit [Entry R K] in
/-- A factorisation stores its matrix, even one that fails. -/
theorem factorize_stores (B : Backend σ R K) (A : Matrix R K) (w : Workspace σ R K) :
    (factorize B A).Ends w (fun _ w' => w'.system.matrix = some A)
      (fun _ w' => w'.system.matrix = some A) :=
  factorize_ends_given spared_matrix B A w

section Solves

/-- A part of the workspace that takes in neither the last solution nor the number of solves nor the
warnings. -/
def Unsolved (π : Workspace σ R K → T) : Prop :=
  ∀ w last solves warnings,
    π { w with system := { w.system with last, solves }, warnings } = π w

variable {π : Workspace σ R K → T} {B : Backend σ R K} {F : Vec K → Work σ R K (Vec K)}

omit [Scalar R] [Entry R K] in
theorem Spared.unsolved (h : Spared π) : Unsolved π := fun w _ _ _ => h w _ _ rfl

/-- The methods touch nothing but the warnings and what the products touch. -/
theorem solveBy_keeps (hπ : ∀ w warnings, π { w with warnings } = π w) (hB : B.Frames)
    {A : Matrix R K} (hA : ∀ v, Keeps π (A.apply F v)) (s : LinearSystem R K) (b : Vec K)
    (M : SolveMethod) : Keeps π (solveBy B F A s b M) := by
  cases M with
  | lu | splu | lstsq => exact keeps_ofFault _
  | gmres =>
    refine Keeps.guard (keeps_throw _) ((hB.gmres hA _ _ _).bind fun ⟨x, outcome⟩ => ?_)
    cases outcome with
    | converged => exact keeps_pure _
    | stopped n => exact Keeps.bind (fun w => hπ w _) fun _ => keeps_pure _

/-- A solution is answered and stored if it is finite; otherwise nothing is stored. -/
theorem answer_spec (x : Vec K) (w : Workspace σ R K) :
    (answer x).Ends w
      (fun y t => y = x ∧ x.isFinite = true ∧
        t = { w with system := { w.system with last := some x } })
      (fun _ t => x.isFinite = false ∧ t = w) :=
  Ends.guard (I := fun t => x.isFinite = true ∧ t = w)
    (fun h => ends_fail.2 ⟨by simpa using h, rfl⟩) (fun h => ⟨by simpa using h, rfl⟩)
    fun _ ht => ⟨rfl, ht.1, ht.2 ▸ rfl⟩

theorem answer_keeps (hπ : Unsolved π) (x : Vec K) : Keeps π (answer x : Work σ R K (Vec K)) :=
  keeps_of_ends fun w => (answer_spec x w).mono (fun _ _ h => h.2.2 ▸ hπ w _ _ _)
    fun _ _ h => h.2 ▸ rfl

/-- A solve leaves all of the linear system alone but its last solution and the number of solves. -/
theorem solve_keeps_unsolved (hπ : Unsolved π) (hB : B.Frames) (hF : ∀ v, Keeps π (F v))
    (b : Vec K) : Keeps π (solve B F b) := by
  apply keeps_get.bind
  intro w
  dsimp only
  split
  · exact keeps_throw _
  · exact Keeps.bind (fun w => hπ w _ _ _) fun _ =>
      (solveBy_keeps (fun w _ => hπ w _ _ _) hB (fun v => Matrix.apply_keeps hF _ v) _ b _).bind
        fun x => answer_keeps hπ x

/-- A solve leaves the stored Jacobian and the matrix of the linear system alone. -/
theorem solve_keeps (hπ : Spared π) (hB : B.Frames) (hF : ∀ v, Keeps π (F v)) (b : Vec K) :
    Keeps π (solve B F b) :=
  solve_keeps_unsolved hπ.unsolved hB hF b

end Solves

end LinearSystem

end RootFinding
