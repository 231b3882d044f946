import RootFinding.Proofs.Singularity

/-!
# One matrix in two forms

Two linear systems that are given the same entries, one in a dense form and one in a sparse one, say.
A method that was asked for computes the same of both. A method that is left to the form of the
matrix is a direct one for both, and the two direct methods agree unless the dense factors of a
nonsingular matrix are uneven.

* `Matrix.Spells A D`: the matrix `A` has the entries of `D`, in whatever form.
* `Thrown.verdict`: what an error says apart from its texts.
* `LinearSystem.factorize_spells`: what a method makes of the entries, whatever the form.
* `LinearSystem.Mirrors`, `Workspace.Mirrors`: two linear systems that were given the same entries,
  and the workspaces around them.
* `LinearSystem.factorize_mirrors`, `LinearSystem.solve_mirrors`: factorisations and solves keep
  them so and end alike.
-/

open scoped Matrix

namespace RootFinding

open Action Exact ExactEntry

variable {σ R K α β : Type}

/-! ## Errors without their texts -/

/-- The kind of a failure, or the fault itself. -/
def Thrown.verdict : Thrown R K → FailureKind ⊕ Fault
  | failure f => .inl f.kind
  | fault e => .inr e

/-- The sequence of two actions with the errors of both renamed. -/
theorem Action.mapError_bind {ε δ S : Type} (g : ε → δ) (a : Action ε S α)
    (f : α → Action ε S β) :
    (a >>= f).mapError g = a.mapError g >>= fun x => (f x).mapError g := by
  refine Action.ext fun s => ?_
  simp only [eval_mapError, eval_bind]
  rcases a.eval s with ⟨_ | x, t⟩ <;> rfl

section Renamed

variable {ε δ S T : Type} {v : ε → δ} {ρ : S → T → Prop} {s s' : S} {t t' : T}

/-- Two actions that end alike but for the texts of their errors, after the states are read. -/
theorem Action.alike_renamed_get {f : S → Action ε S β} {g : T → Action ε T β}
    (h : Alike ρ ((f s).mapError v) ((g t).mapError v) s t) :
    Alike ρ ((get >>= f).mapError v) ((get >>= g).mapError v) s t := by
  simpa only [Alike, eval_mapError, eval_bind, eval_get] using h

theorem Action.Alike.renamed_bind {ρ' : S → T → Prop} {a : Action ε S α} {b : Action ε T α}
    {f : α → Action ε S β} {g : α → Action ε T β}
    (h : Alike ρ' (a.mapError v) (b.mapError v) s t)
    (hf : ∀ x s' t', ρ' s' t' → Alike ρ ((f x).mapError v) ((g x).mapError v) s' t')
    (hE : ∀ s' t', ρ' s' t' → ρ s' t') :
    Alike ρ ((a >>= f).mapError v) ((b >>= g).mapError v) s t := by
  simp only [mapError_bind]
  exact h.bind hf hE

/-- Past two actions that answer, maybe different things. -/
theorem Action.alike_renamed_ok {γ : Type} {a : Action ε S α} {b : Action ε T γ}
    {f : α → Action ε S β} {g : γ → Action ε T β} {x : α} {y : γ} (ha : a.eval s = (.ok x, s'))
    (hb : b.eval t = (.ok y, t'))
    (h : Alike ρ ((f x).mapError v) ((g y).mapError v) s' t') :
    Alike ρ ((a >>= f).mapError v) ((b >>= g).mapError v) s t := by
  simpa only [Alike, eval_mapError, eval_bind, ha, hb] using h

/-- Two actions that fail alike. -/
theorem Action.alike_renamed_error {γ : Type} {a : Action ε S α} {b : Action ε T γ}
    {f : α → Action ε S β} {g : γ → Action ε T β} {e e' : ε} (ha : a.eval s = (.error e, s'))
    (hb : b.eval t = (.error e', t')) (he : v e = v e') (h : ρ s' t') :
    Alike ρ ((a >>= f).mapError v) ((b >>= g).mapError v) s t := by
  simp only [Alike, eval_mapError, eval_bind, ha, hb]
  exact ⟨congrArg Except.error he, h⟩

end Renamed

/-- A call failed because its matrix is singular. -/
def LinearSystem.FailsSingular (x : Except (Thrown R K) α) : Prop :=
  ∃ f, x = .error (.failure f) ∧ f.kind = .singularSystem

theorem Thrown.verdict_singular {x : Except (Thrown R K) α}
    (h : x.mapError verdict = .error (.inl .singularSystem)) :
    LinearSystem.FailsSingular x := by
  rcases x with (f | e) | x
  · exact ⟨f, rfl, Sum.inl.inj (Except.error.inj h)⟩
  · cases h
  · cases h

theorem Except.mapError_eq_ok {ε δ : Type} {g : ε → δ} {x : Except ε α} {y : α}
    (h : x.mapError g = .ok y) : x = .ok y := by
  cases x with
  | ok z => exact congrArg Except.ok (Except.ok.inj h)
  | error e => cases h

/-! ## Entries in a form -/

section Forms

variable [Scalar R] [Entry R K]

/-- The matrix has the entries of the dense one, in a form of its own. -/
structure Matrix.Spells (A : Matrix R K) (D : Dense K) : Prop where
  entries : A.toDense? = some D
  /-- Finite entries are not told by entries that are absent. -/
  finite : A.isFinite = Dense.isFinite D

namespace Matrix.Spells

variable {A A' : Matrix R K} {D : Dense K}

theorem concrete (h : A.Spells D) : LinearSystem.concrete A = .ok D := by
  cases A with
  | dense A | sparse A => exact congrArg Except.ok (Option.some.inj h.entries)
  | free A => cases h.entries

theorem shape (h : A.Spells D) : A.height = D.height ∧ A.cols = D.cols := by
  have hentries := h.entries
  cases A with
  | dense A =>
    cases hentries
    exact ⟨rfl, rfl⟩
  | sparse A =>
    cases hentries
    exact ⟨by simp [Matrix.height, Sparse.height, Sparse.toDense, Grid.height, Grid.map], rfl⟩
  | free A => cases hentries

/-- A matrix is refused as a Jacobian for its entries, not for its form. -/
theorem defect (h : A.Spells D) (h' : A'.Spells D) (m : Option Nat) (n : Nat) :
    Problem.jacobianDefect? A m n = Problem.jacobianDefect? A' m n := by
  simp only [Problem.jacobianDefect?, Matrix.shape, h.shape, h'.shape, h.finite, h'.finite]

/-- The method for a square matrix is a direct one. -/
theorem forMatrix_isDirect (h : A.Spells D) (hsquare : D.isSquare = true) :
    (SolveMethod.forMatrix A).IsDirect := by
  rw [LinearSystem.isSquare_of_toDense? h.entries] at hsquare
  unfold SolveMethod.forMatrix
  rw [if_pos hsquare]
  cases A with
  | dense A | sparse A => trivial
  | free A => cases h.entries

end Matrix.Spells

/-! ## What a method makes of the entries -/

/-- The factors of a matrix that a method takes. -/
def SolveMethod.factors (D : Dense K) : SolveMethod → Option (Factors K)
  | lu => some (.lu D)
  | splu => some (.splu D)
  | gmres => none
  | lstsq => some (.lstsq D)

/-- Why a method does not take a matrix, if it does not. -/
def Backend.verdict? (B : Backend σ R K) (D : Dense K) : SolveMethod → Option (FailureKind ⊕ Fault)
  | .lu => (singularDetails? (B.pivots D) D.height).map fun _ => .inl .singularSystem
  | .splu =>
    if !D.isSquare then some (.inr .unfitSystem)
    else if B.sparseSingular D then some (.inl .singularSystem)
    else none
  | .gmres | .lstsq => none

namespace LinearSystem

variable {B : Backend σ R K} {A : Matrix R K} {D : Dense K} {M : SolveMethod}
  {w : Workspace σ R K}

/-- A factorisation depends on the entries of the matrix, but for the method that is chosen. -/
theorem factorize_spells (hA : A.Spells D)
    (hM : w.system.method.getD (SolveMethod.forMatrix A) = M) (hgmres : M ≠ .gmres) :
    ((factorize B A).mapError Thrown.verdict).eval w =
      match B.verdict? D M with
      | none => (.ok (), { w with system := w.system.factorized A M (M.factors D) })
      | some v => (.error v, { w with
          system := { w.system with method := some M, matrix := some A, factors := none } }) := by
  simp only [eval_mapError, factorize, eval_bind, eval_get, change, eval_modify, hM]
  cases M with
  | lu =>
    simp only [factorizeDense, hA.concrete, eval_bind, eval_ofFault_ok, Backend.verdict?]
    cases singularDetails? (B.pivots D) D.height with
    | some details => rfl
    | none => rfl
  | splu =>
    simp only [factorizeSparse, hA.entries, Backend.verdict?]
    split
    · rfl
    · split
      · rfl
      · rfl
  | gmres => exact (hgmres rfl).elim
  | lstsq =>
    simp only [hA.concrete, eval_bind, eval_ofFault_ok, Backend.verdict?]
    rfl

/-- The answer of a direct method or of the least squares method. -/
theorem solveBy_named (F F' : Vec K → Work σ R K (Vec K)) (A A' : Matrix R K)
    {s s' : LinearSystem R K} (hfactors : s'.factors = s.factors) (b : Vec K)
    (hgmres : M ≠ .gmres) :
    ∃ x, solveBy B F A s b M = Action.ofFault x ∧ solveBy B F' A' s' b M = Action.ofFault x := by
  cases M with
  | lu | splu | lstsq =>
    simp only [solveBy, hfactors]
    exact ⟨_, rfl, rfl⟩
  | gmres => exact (hgmres rfl).elim

end LinearSystem

end Forms

/-! ## The direct methods -/

section Direct

variable {𝕜 : Type} [RCLike 𝕜] [Entry Exact K] [ExactEntry 𝕜 K] {n : Nat}
  {B : Backend σ Exact K} {D : Dense K} {N : FieldMatrix 𝕜 n n} {M M' : SolveMethod}

variable (𝕜) in
include 𝕜 in
/-- The sparse matrix of the entries that are not zero. -/
theorem Matrix.spells_ofDense (D : Dense K) :
    (.sparse (Sparse.ofDense D) : Matrix Exact K).Spells D := by
  have habsent : ∀ r ∈ D.rows, ∀ x ∈ r, Entry.isZero x = true →
      Entry.zeroAs (Dense.isReal D) = x ∧ Entry.isFinite x = true := by
    intro r hr x hx hzero
    have hnumber : x = number (0 : 𝕜) := (isZero_iff x).1 hzero
    refine ⟨?_, (isFinite_iff x).2 ⟨0, hnumber⟩⟩
    have hreal : Dense.isReal D = Entry.isReal x := by
      -- an entry of the matrix tells whether all entries are real
      cases h : Entry.isReal x with
      | true =>
        exact List.all_eq_true.2 fun _ _ => List.all_eq_true.2 fun y _ => (isReal_eq y x).trans h
      | false =>
        refine Bool.eq_false_iff.2 fun hall => Bool.eq_false_iff.1 h ?_
        exact List.all_eq_true.1 (List.all_eq_true.1 hall r hr) x hx
    rw [hreal, ExactEntry.zeroAs, hnumber]
  constructor
  · have hrows : D.rows.map (fun r => r.map fun x =>
        (if Entry.isZero x then none else some x).getD (Entry.zeroAs (Dense.isReal D))) =
          D.rows := by
      refine (List.map_congr_left fun r hr => ?_).trans (List.map_id _)
      refine (List.map_congr_left fun x hx => ?_).trans (List.map_id _)
      split
      next hzero => exact (habsent r hr x hx hzero).1
      next => rfl
    refine congrArg some ?_
    cases D
    simp only [Sparse.toDense, Sparse.ofDense, Grid.map, List.map_map, Grid.mk.injEq, true_and]
    simpa only [Function.comp_def, List.map_map] using hrows
  · have hentry : ∀ r ∈ D.rows, ∀ x ∈ r,
        (if Entry.isZero x then none else some x).all Entry.isFinite = Entry.isFinite x := by
      intro r hr x hx
      split
      next hzero => exact (habsent r hr x hx hzero).2.symm
      next => rfl
    rw [Bool.eq_iff_iff]
    simp only [Matrix.isFinite, Sparse.isFinite, Sparse.ofDense, Dense.isFinite, Grid.all, Grid.map,
      List.all_map, List.all_eq_true, Function.comp_apply]
    exact forall₂_congr fun r hr => forall₂_congr fun x hx => by rw [hentry r hr x hx]

variable (𝕜) in
/-- A square matrix of numbers with at least one row, whose dense factors are uneven only if it is
singular. -/
def Dense.Comparable (B : Backend σ Exact K) (D : Dense K) : Prop :=
  ∃ (n : Nat) (N : FieldMatrix 𝕜 n n), 0 < n ∧ D.Reads N ∧ (D.Uneven B → N.det = 0)

/-- What a direct method computes from its factors. -/
def Backend.directSolve (B : Backend σ Exact K) (D : Dense K) (b : Vec K) (M : SolveMethod) :
    Vec K :=
  if M = .splu then B.sparseSolve D b else B.luSolve D b

theorem Dense.Reads.isSquare (hD : D.Reads N) : D.isSquare = true := by
  simp [Grid.isSquare, hD.height, hD.cols]

namespace Backend.Pivots

variable (hB : B.Pivots 𝕜)

include hB

/-- The verdict of the dense method. -/
theorem verdict_lu (hn : 0 < n) (hD : D.Reads N) :
    (D.Uneven B ∧ B.verdict? D .lu = some (.inl .singularSystem)) ∨
      (¬D.Uneven B ∧ B.verdict? D .lu = none) := by
  by_cases heven : D.Uneven B
  · refine .inl ⟨heven, ?_⟩
    cases hdetails : singularDetails? (B.pivots D) D.height with
    | none => exact ((hB.dense_iff hn hD).1 hdetails heven).elim
    | some details => simp [verdict?, hdetails]
  · exact .inr ⟨heven, by simp [verdict?, (hB.dense_iff hn hD).2 heven]⟩

/-- The verdict of the sparse method. -/
theorem verdict_splu (hD : D.Reads N) :
    (N.det = 0 ∧ B.verdict? D .splu = some (.inl .singularSystem)) ∨
      (N.det ≠ 0 ∧ B.verdict? D .splu = none) := by
  simp only [verdict?, hD.isSquare]
  by_cases hdet : N.det = 0
  · exact .inl ⟨hdet, by simp [(hB.sparse_iff hD).2 hdet]⟩
  · exact .inr ⟨hdet, by simp [Bool.eq_false_iff.2 fun h => hdet ((hB.sparse_iff hD).1 h)]⟩

/-- The direct methods agree on a matrix whose dense factors are uneven only if it is singular. -/
theorem verdict_comparable (hD : D.Comparable 𝕜 B) (hM : M.IsDirect) :
    (D.Uneven B ∧ B.verdict? D M = some (.inl .singularSystem)) ∨
      (¬D.Uneven B ∧ B.verdict? D M = none) := by
  obtain ⟨n, N, hn, hreads, heven⟩ := hD
  cases M with
  | lu => exact hB.verdict_lu hn hreads
  | splu =>
    rcases hB.verdict_splu hreads with ⟨hdet, hverdict⟩ | ⟨hdet, hverdict⟩
    · exact .inl ⟨hB.uneven_of_det hreads hdet, hverdict⟩
    · exact .inr ⟨fun h => hdet (heven h), hverdict⟩
  | gmres | lstsq => exact hM.elim

/-- Two direct solves with even factors. -/
theorem directSolve_eq (hn : 0 < n) (hD : D.Reads N) (heven : ¬D.Uneven B) {b : Vec K}
    (hb : b.size = n) :
    B.directSolve D b M' = B.directSolve D b M ∨
      (B.directSolve D b M).isFinite = false ∧ (B.directSolve D b M').isFinite = false := by
  have hsolve := hB.solve_eq hn hD heven hb
  unfold directSolve
  split
  · split
    · exact .inl rfl
    · exact hsolve
  · split
    · exact hsolve.imp Eq.symm And.symm
    · exact .inl rfl

end Backend.Pivots

namespace LinearSystem

/-- A direct method answers from its factors whatever has the right number of entries. -/
theorem solveBy_direct (F : Vec K → Work σ Exact K (Vec K)) {A : Matrix Exact K}
    {s : LinearSystem Exact K} (hn : 0 < n) (hD : D.Reads N) (hM : M.IsDirect)
    (hfactors : s.factors = M.factors D) (b : Vec K) :
    solveBy B F A s b M = Action.ofFault
      (if b.size ≠ D.height then .error .unfitSystem else .ok (B.directSolve D b M)) := by
  cases M with
  | lu =>
    simp only [solveBy, hfactors, SolveMethod.factors, solveDense, hD.isSquare, Bool.not_true,
      Bool.false_eq_true, if_false, Backend.directSolve, reduceCtorEq]
  | splu =>
    have hreal : (Dense.isReal D && !b.isReal) = false := by
      -- an entry of the matrix tells whether all entries are real
      by_contra hmixed
      rw [Bool.not_eq_false, Bool.and_eq_true_iff, Bool.not_eq_true'] at hmixed
      obtain ⟨hD', hb'⟩ := hmixed
      obtain ⟨x, hx, hcomplex⟩ : ∃ x ∈ b.toList, ¬Entry.isReal x = true :=
        List.all_eq_false.1 hb'
      have hrow : (Vec.numbers (List.ofFn (N ⟨0, hn⟩)) : Vec K).toList ∈ D.rows := by
        rw [hD.rows]
        exact List.mem_ofFn.2 ⟨_, rfl⟩
      have hentry : (number (N ⟨0, hn⟩ ⟨0, hn⟩) : K) ∈
          (Vec.numbers (List.ofFn (N ⟨0, hn⟩)) : Vec K).toList :=
        List.mem_map.2 ⟨_, List.mem_ofFn.2 ⟨_, rfl⟩, rfl⟩
      have htrue := List.all_eq_true.1 (List.all_eq_true.1 hD' _ hrow) _ hentry
      exact hcomplex ((isReal_eq x _).trans htrue)
    simp only [solveBy, hfactors, SolveMethod.factors, solveSparse, hreal, Bool.false_eq_true,
      if_false, Backend.directSolve, if_true]
  | gmres | lstsq => exact hM.elim

end LinearSystem

/-! ## Workspaces with one matrix -/

/-- Two matrices that are kept, if any is, and have the same entries. -/
inductive SameStored : Option (Matrix Exact K) → Option (Matrix Exact K) → Prop
  | none : SameStored none none
  | some {A A' : Matrix Exact K} (D : Dense K) (spells : A.Spells D) (spells' : A'.Spells D) :
    SameStored (some A) (some A')

theorem SameStored.isNone {J J' : Option (Matrix Exact K)} (h : SameStored J J') :
    J'.isNone = J.isNone := by
  cases h <;> rfl

variable (𝕜) in
/-- Two linear systems with one choice of the method that were given the same entries. Where the
choice is left to the matrix, both are solved by a direct method, and either both have factors or
none has. -/
inductive LinearSystem.Mirrors (B : Backend σ Exact K) (choice : Option SolveMethod)
    (s s' : LinearSystem Exact K) : Prop
  | empty (method : s.method = choice) (matrix : s.matrix = none) (eq : s' = s)
  | named {M : SolveMethod} {A A' : Matrix Exact K} (D : Dense K) (chosen : choice = some M)
    (method : s.method = some M) (matrix : s.matrix = some A) (spells : A.Spells D)
    (spells' : A'.Spells D) (eq : s' = { s with matrix := some A' })
  | direct {M M' : SolveMethod} {A A' : Matrix Exact K} {factors : Option (Factors K)} (D : Dense K)
    (chosen : choice = none) (method : s.method = some M) (matrix : s.matrix = some A)
    (isDirect : M.IsDirect) (isDirect' : M'.IsDirect) (spells : A.Spells D)
    (spells' : A'.Spells D)
    (prepared : s.factors = none ∧ factors = none ∨
      s.factors = M.factors D ∧ factors = M'.factors D ∧
        ∃ (n : Nat) (N : FieldMatrix 𝕜 n n), 0 < n ∧ D.Reads N ∧ ¬D.Uneven B)
    (eq : s' = { s with method := some M', matrix := some A', factors })

variable (𝕜) in
/-- Workspaces that share everything but the forms of their matrices. -/
def Workspace.Mirrors (B : Backend σ Exact K) (choice : Option SolveMethod)
    (w w' : Workspace σ Exact K) : Prop :=
  ∃ jacobian system, SameStored w.jacobian jacobian ∧
    LinearSystem.Mirrors 𝕜 B choice w.system system ∧ w' = { w with jacobian, system }

namespace LinearSystem

variable {choice : Option SolveMethod} {w w' : Workspace σ Exact K} {A A' : Matrix Exact K}

theorem Mirrors.exists_eq {s s' : LinearSystem Exact K} (h : Mirrors 𝕜 B choice s s') :
    ∃ method matrix factors, s' = { s with method, matrix, factors } := by
  cases h with
  | empty _ _ eq => exact ⟨_, _, _, eq⟩
  | named _ _ _ _ _ _ eq => exact ⟨_, _, _, eq⟩
  | direct _ _ _ _ _ _ _ _ _ eq => exact ⟨_, _, _, eq⟩

/-- The method of both systems for their next matrices: the one that was asked for, or a direct one
for each. -/
theorem Mirrors.methods {s s' : LinearSystem Exact K} (h : Mirrors 𝕜 B choice s s')
    (hA : A.Spells D) (hA' : A'.Spells D) (hsquare : choice = none → D.isSquare = true) :
    ∃ M M', s.method.getD (SolveMethod.forMatrix A) = M ∧
      s'.method.getD (SolveMethod.forMatrix A') = M' ∧
        (choice = some M ∧ M' = M ∨ choice = none ∧ M.IsDirect ∧ M'.IsDirect) := by
  cases h with
  | empty method _ eq =>
    rw [eq, method]
    cases choice with
    | none =>
      exact ⟨_, _, rfl, rfl, .inr ⟨rfl, hA.forMatrix_isDirect (hsquare rfl),
        hA'.forMatrix_isDirect (hsquare rfl)⟩⟩
    | some M => exact ⟨M, M, rfl, rfl, .inl ⟨rfl, rfl⟩⟩
  | @named M _ _ _ chosen method _ _ _ eq =>
    rw [eq, method]
    exact ⟨M, M, rfl, rfl, .inl ⟨chosen, rfl⟩⟩
  | @direct M M' _ _ _ _ chosen method _ isDirect isDirect' _ _ _ eq =>
    rw [eq, method]
    exact ⟨M, M', rfl, rfl, .inr ⟨chosen, isDirect, isDirect'⟩⟩

/-- Methods that count their factorisations alike leave systems that differ in the method, the
matrix and the factors only. -/
theorem Mirrors.factorized {s s' : LinearSystem Exact K} (h : Mirrors 𝕜 B choice s s')
    (hM : M' = M ∧ M ≠ .gmres ∨ M.IsDirect ∧ M'.IsDirect) (factors factors' : Option (Factors K)) :
    s'.factorized A' M' factors' = { s.factorized A M factors with
      method := some M', matrix := some A', factors := factors' } := by
  obtain ⟨method, matrix, factors, rfl⟩ := h.exists_eq
  rcases hM with ⟨rfl, hgmres⟩ | ⟨hdirect, hdirect'⟩
  · cases M' with
    | lu | splu | lstsq => rfl
    | gmres => exact (hgmres rfl).elim
  · cases M <;> cases M' <;> first | rfl | exact hdirect.elim | exact hdirect'.elim

/-- Two factorisations of the same entries end alike, and leave systems that go on alike. -/
theorem factorize_mirrors (hB : B.Pivots 𝕜) (hchoice : choice ≠ some .gmres)
    (hw : w.Mirrors 𝕜 B choice w') (hA : A.Spells D) (hA' : A'.Spells D)
    (hD : choice = none → D.Comparable 𝕜 B) :
    Alike (Workspace.Mirrors 𝕜 B choice) ((factorize B A).mapError Thrown.verdict)
      ((factorize B A').mapError Thrown.verdict) w w' := by
  obtain ⟨jacobian, system, hjacobian, hsystem, heq⟩ := hw
  obtain rfl : w'.system = system := congrArg (·.system) heq
  obtain ⟨M, M', hM, hM', hmethods⟩ := hsystem.methods hA hA' fun hnone => by
    obtain ⟨n, N, -, hreads, -⟩ := hD hnone
    exact hreads.isSquare
  have hgmres : M ≠ .gmres ∧ M' ≠ .gmres := by
    rcases hmethods with ⟨hchosen, rfl⟩ | ⟨-, hdirect, hdirect'⟩
    · exact ⟨fun h => hchoice (h ▸ hchosen), fun h => hchoice (h ▸ hchosen)⟩
    · exact ⟨fun h => by rwa [h] at hdirect, fun h => by rwa [h] at hdirect'⟩
  have hleft := factorize_spells (B := B) hA hM hgmres.1
  have hright := factorize_spells (B := B) hA' hM' hgmres.2
  rcases hmethods with ⟨hchosen, rfl⟩ | ⟨hnone, hdirect, hdirect'⟩
  · cases hverdict : B.verdict? D M' with
    | none =>
      rw [hverdict] at hleft hright
      refine alike_of_eval hleft hright ⟨jacobian, _, hjacobian, .named D hchosen
        (factorized_method _ _ _ _) (factorized_holds _ _ _ _).1 hA hA' ?_, by rw [heq]⟩
      rw [hsystem.factorized (.inl ⟨rfl, hgmres.1⟩) (M'.factors D), ← factorized_method w.system A M',
        (factorized_holds _ _ _ _).2]
    | some v =>
      rw [hverdict] at hleft hright
      refine alike_of_eval hleft hright
        ⟨jacobian, _, hjacobian, .named D hchosen rfl rfl hA hA' ?_, by rw [heq]⟩
      obtain ⟨method, matrix, factors, hrest⟩ := hsystem.exists_eq
      rw [hrest]
  · rcases hB.verdict_comparable (hD hnone) hdirect with ⟨huneven, hverdict⟩ | ⟨heven, hverdict⟩
    · have hverdict' : B.verdict? D M' = some (.inl .singularSystem) :=
        ((hB.verdict_comparable (hD hnone) hdirect').resolve_right fun h => h.1 huneven).2
      rw [hverdict] at hleft
      rw [hverdict'] at hright
      refine alike_of_eval hleft hright ⟨jacobian, _, hjacobian,
        .direct D hnone rfl rfl hdirect hdirect' hA hA' (.inl ⟨rfl, rfl⟩) ?_, by rw [heq]⟩
      obtain ⟨method, matrix, factors, hrest⟩ := hsystem.exists_eq
      rw [hrest]
    · have hverdict' : B.verdict? D M' = none :=
        ((hB.verdict_comparable (hD hnone) hdirect').resolve_left fun h => heven h.1).2
      rw [hverdict] at hleft
      rw [hverdict'] at hright
      obtain ⟨n, N, hn, hreads, -⟩ := hD hnone
      exact alike_of_eval hleft hright ⟨jacobian, _, hjacobian,
        .direct D hnone (factorized_method _ _ _ _) (factorized_holds _ _ _ _).1 hdirect hdirect'
          hA hA' (.inr ⟨(factorized_holds _ _ _ _).2, rfl, n, N, hn, hreads, heven⟩)
          (hsystem.factorized (.inr ⟨hdirect, hdirect'⟩) _ _), by rw [heq]⟩

/-- A change of the counters and of the last solution alone. -/
theorem mirrors_change {f : LinearSystem Exact K → LinearSystem Exact K}
    (hf : ∀ s method matrix factors,
      f { s with method, matrix, factors } = { f s with method, matrix, factors }) :
    Respects (Workspace.Mirrors 𝕜 B choice) (change f : Work σ Exact K Unit) := by
  intro w w' hw
  obtain ⟨jacobian, system, hjacobian, hsystem, rfl⟩ := hw
  refine alike_modify ⟨jacobian, f system, hjacobian, ?_, rfl⟩
  have hkept : ∀ s : LinearSystem Exact K, (f s).method = s.method ∧ (f s).matrix = s.matrix ∧
      (f s).factors = s.factors := fun s => by
    have hself := hf s s.method s.matrix s.factors
    exact ⟨congrArg (·.method) hself, congrArg (·.matrix) hself, congrArg (·.factors) hself⟩
  obtain ⟨hmethod, hmatrix, hfactors⟩ := hkept w.system
  cases hsystem with
  | empty method matrix eq =>
    exact .empty (hmethod.trans method) (hmatrix.trans matrix) (by rw [eq])
  | named D chosen method matrix spells spells' eq =>
    refine .named D chosen (hmethod.trans method) (hmatrix.trans matrix) spells spells' ?_
    rw [eq]
    exact (hf w.system w.system.method _ w.system.factors).trans (by rw [← hmethod, ← hfactors])
  | direct D chosen method matrix isDirect isDirect' spells spells' prepared eq =>
    refine .direct D chosen (hmethod.trans method) (hmatrix.trans matrix) isDirect isDirect' spells
      spells' (by rwa [hfactors]) ?_
    rw [eq, hf]

/-- What is done with the answer of a method. -/
theorem answer_mirrors (hw : w.Mirrors 𝕜 B choice w') {x x' : Vec K}
    (hx : x' = x ∨ x.isFinite = false ∧ x'.isFinite = false) :
    Alike (Workspace.Mirrors 𝕜 B choice) (answer x) (answer x') w w' := by
  rcases hx with rfl | ⟨hx, hx'⟩
  · exact Respects.guard (respects_throw _)
      ((mirrors_change fun _ _ _ _ => rfl).bind fun _ => respects_pure _) w w' hw
  · simp only [answer, hx, hx']
    exact alike_throw hw _

/-- A direct method without factors finds none. -/
theorem solveBy_unprepared {s : LinearSystem Exact K} (F : Vec K → Work σ Exact K (Vec K))
    (b : Vec K) (hs : s.factors = none) (hM : M.IsDirect) :
    solveBy B F A s b M = throw (.fault .noFactors) := by
  cases M with
  | lu =>
    simp only [solveBy, hs, solveDense]
    rfl
  | splu =>
    simp only [solveBy, hs, solveSparse]
    rfl
  | gmres | lstsq => exact hM.elim

/-- Two solves with the same entries answer the same vector, or fail alike. -/
theorem solve_mirrors (hB : B.Pivots 𝕜) (hchoice : choice ≠ some .gmres)
    (F F' : Vec K → Work σ Exact K (Vec K)) (b : Vec K) (hw : w.Mirrors 𝕜 B choice w') :
    Alike (Workspace.Mirrors 𝕜 B choice) (solve B F b) (solve B F' b) w w' := by
  have hcount : Respects (Workspace.Mirrors 𝕜 B choice)
      (change fun s => { s with solves := s.solves + 1 } : Work σ Exact K Unit) :=
    mirrors_change fun _ _ _ _ => rfl
  obtain ⟨jacobian, system, hjacobian, hsystem, heq⟩ := id hw
  obtain rfl : w'.system = system := congrArg (·.system) heq
  simp only [solve, alike_get_bind]
  cases hsystem with
  | empty method matrix eq =>
    simp only [eq, matrix]
    exact alike_throw hw _
  | @named M A A' D chosen method matrix spells spells' eq =>
    have hgmres : M ≠ .gmres := fun h => hchoice (h ▸ chosen)
    have hfactors : w'.system.factors = w.system.factors := by rw [eq]
    obtain ⟨x, hx, hx'⟩ := solveBy_named (B := B) F F' A A' hfactors b hgmres
    have hmethod' : w'.system.method = some M := by rw [eq, method]
    have hmatrix' : w'.system.matrix = some A' := by rw [eq]
    simp only [matrix, hmatrix', method, hmethod', Option.getD_some, hx, hx']
    refine (hcount w w' hw).bind (fun _ v v' h => ?_) (fun _ _ h => h)
    exact (respects_ofFault x v v' h).bind (fun y t t' h => answer_mirrors h (.inl rfl))
      (fun _ _ h => h)
  | @direct M M' A A' factors D chosen method matrix isDirect isDirect' spells spells' prepared eq =>
    have hmethod' : w'.system.method = some M' := by rw [eq]
    have hmatrix' : w'.system.matrix = some A' := by rw [eq]
    have hfactors' : w'.system.factors = factors := by rw [eq]
    simp only [matrix, hmatrix', method, hmethod', Option.getD_some]
    refine (hcount w w' hw).bind (fun _ v v' h => ?_) (fun _ _ h => h)
    rcases prepared with ⟨hnone, rfl⟩ | ⟨hfactors, rfl, n, N, hn, hD, heven⟩
    · rw [solveBy_unprepared F b hnone isDirect, solveBy_unprepared F' b hfactors' isDirect']
      exact alike_throw h _
    · rw [solveBy_direct F hn hD isDirect hfactors, solveBy_direct F' hn hD isDirect' hfactors']
      split
      · exact alike_throw h _
      next hsize =>
        exact answer_mirrors h
          (hB.directSolve_eq hn hD heven ((not_not.1 hsize).trans hD.height))

/-! ## Two handles -/

/-- How the two direct methods fare with one matrix: `p` is what the dense method makes of it, and
`q` what the sparse one makes of it. -/
structure Compared (B : Backend σ Exact K) (D : Dense K) (N : FieldMatrix 𝕜 n n)
    (p q : Except (Thrown Exact K) Unit × Workspace σ Exact K) : Prop where
  dense_refused : D.Uneven B → FailsSingular p.1
  dense_taken : ¬D.Uneven B → p.1 = .ok ()
  sparse_refused : N.det = 0 → FailsSingular q.1
  sparse_taken : N.det ≠ 0 → q.1 = .ok ()
  singular : N.det = 0 → D.Uneven B
  same (F F' : Vec K → Work σ Exact K (Vec K)) (b : Vec K) : ¬D.Uneven B →
    ((solve B F b).eval p.2).1 = ((solve B F' b).eval q.2).1
  solves (F : Vec K → Work σ Exact K (Vec K)) (b : Vec K) (g : Fin n → 𝕜) : ¬D.Uneven B →
    b.Reads g → ∃ x y, ((solve B F b).eval p.2).1 = .ok x ∧ x.Reads y ∧ N *ᵥ y = g

/-- What a solve with direct factors answers; the workspace `v` is any. -/
theorem solve_direct (F : Vec K → Work σ Exact K (Vec K)) (hn : 0 < n) (hD : D.Reads N)
    (hM : M.IsDirect) (hmethod : w.system.method = some M) (hmatrix : w.system.matrix = some A)
    (hfactors : w.system.factors = M.factors D) (b : Vec K) (v : Workspace σ Exact K) :
    ((solve B F b).eval w).1 =
      if b.size ≠ D.height then .error (.fault .unfitSystem)
      else ((answer (B.directSolve D b M)).eval v).1 := by
  have hanswer : ∀ (x : Vec K) (t : Workspace σ Exact K),
      ((answer x).eval t).1 = ((answer x).eval v).1 := fun x t => by
    unfold answer
    split <;> rfl
  simp only [solve, eval_bind, eval_get, hmatrix, change, eval_modify, hmethod, Option.getD_some,
    solveBy_direct F hn hD hM hfactors]
  by_cases hsize : b.size ≠ D.height
  · simp only [if_pos hsize, eval_ofFault_error]
  · simp only [if_neg hsize, eval_ofFault_ok]
    exact hanswer _ _

/-- A matrix that a method refuses as singular is refused. -/
theorem factorize_refused (hA : A.Spells D) (hmethod : w.system.method = some M)
    (hgmres : M ≠ .gmres) (hverdict : B.verdict? D M = some (.inl .singularSystem)) :
    FailsSingular ((factorize B A).eval w).1 := by
  have hM : w.system.method.getD (SolveMethod.forMatrix A) = M := by
    rw [hmethod, Option.getD_some]
  have heval := factorize_spells (B := B) hA hM hgmres
  rw [hverdict] at heval
  exact Thrown.verdict_singular (congrArg (·.1) heval)

/-- A matrix that a method does not refuse is taken, with its factors. -/
theorem factorize_taken (hA : A.Spells D) (hmethod : w.system.method = some M)
    (hgmres : M ≠ .gmres) (hverdict : B.verdict? D M = none) :
    (factorize B A).eval w =
      (.ok (), { w with system := w.system.factorized A M (M.factors D) }) := by
  have hM : w.system.method.getD (SolveMethod.forMatrix A) = M := by
    rw [hmethod, Option.getD_some]
  have heval := factorize_spells (B := B) hA hM hgmres
  rw [hverdict] at heval
  exact Prod.ext (Except.mapError_eq_ok (congrArg (·.1) heval)) (congrArg (·.2) heval)

/-- What a solve answers after a direct method has taken a matrix. -/
theorem solve_taken (F : Vec K → Work σ Exact K (Vec K)) (hn : 0 < n) (hD : D.Reads N)
    (hdirect : M.IsDirect) (hA : A.Spells D) (hmethod : w.system.method = some M)
    (hverdict : B.verdict? D M = none) (b : Vec K) (v : Workspace σ Exact K) :
    ((solve B F b).eval ((factorize B A).eval w).2).1 =
      if b.size ≠ D.height then .error (.fault .unfitSystem)
      else ((answer (B.directSolve D b M)).eval v).1 := by
  have hgmres : M ≠ .gmres := fun h => by rwa [h] at hdirect
  rw [factorize_taken hA hmethod hgmres hverdict]
  exact solve_direct F hn hD hdirect (factorized_method _ _ _ _) (factorized_holds _ _ _ _).1
    (factorized_holds _ _ _ _).2 b v

theorem compared (hB : B.Pivots 𝕜) (hn : 0 < n) (hD : D.Reads N) (hA : A.Spells D)
    (hA' : A'.Spells D) (hw : w.system.method = some .lu) (hw' : w'.system.method = some .splu) :
    Compared B D N ((factorize B A).eval w) ((factorize B A').eval w') := by
  have hlu : SolveMethod.lu.IsDirect := trivial
  have hsplu : SolveMethod.splu.IsDirect := trivial
  have hregular : ¬D.Uneven B → N.det ≠ 0 := fun h hdet => h (hB.uneven_of_det hD hdet)
  have hverdict : ¬D.Uneven B → B.verdict? D .lu = none := fun h =>
    ((hB.verdict_lu hn hD).resolve_left fun h' => h h'.1).2
  have hverdict' : N.det ≠ 0 → B.verdict? D .splu = none := fun h =>
    ((hB.verdict_splu hD).resolve_left fun h' => h h'.1).2
  refine ⟨fun h => ?_, fun h => ?_, fun h => ?_, fun h => ?_, hB.uneven_of_det hD,
    fun F F' b h => ?_, fun F b g h hb => ?_⟩
  · exact factorize_refused hA hw (by simp)
      ((hB.verdict_lu hn hD).resolve_right fun h' => h'.1 h).2
  · rw [factorize_taken hA hw (by simp) (hverdict h)]
  · exact factorize_refused hA' hw' (by simp)
      ((hB.verdict_splu hD).resolve_right fun h' => h'.1 h).2
  · rw [factorize_taken hA' hw' (by simp) (hverdict' h)]
  · rw [solve_taken F hn hD hlu hA hw (hverdict h) b w,
      solve_taken F' hn hD hsplu hA' hw' (hverdict' (hregular h)) b w]
    split
    · rfl
    next hsize =>
      have hsame : B.directSolve D b .splu = B.directSolve D b .lu ∨
          (B.directSolve D b .lu).isFinite = false ∧ (B.directSolve D b .splu).isFinite = false :=
        hB.directSolve_eq hn hD h ((not_not.1 hsize).trans hD.height)
      rcases hsame with hsame | ⟨hinfinite, hinfinite'⟩
      · rw [hsame]
      · simp only [answer, hinfinite, hinfinite']
        rfl
  · obtain ⟨y, hy, hsolved⟩ := hB.lu hD hb ((hB.dense_iff hn hD).2 h)
    have hsize : ¬b.size ≠ D.height := by rw [hb.size, hD.height, not_not]
    have hdirect : B.directSolve D b .lu = B.luSolve D b := if_neg (by simp)
    refine ⟨_, y, ?_, hy, hsolved⟩
    rw [solve_taken F hn hD hlu hA hw (hverdict h) b w, if_neg hsize, hdirect]
    simp only [answer, hy.isFinite]
    rfl

end LinearSystem

end Direct

end RootFinding
