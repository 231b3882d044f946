import RootFinding.Proofs.Handles
import RootFinding.Proofs.Routines

/-!
# The books of a linear system

What a linear system has written down after any calls of it: the method, the vector from which the
iterative method starts, and two counters. Each of them is told by the calls alone. The counters and
the vector are written at different places of a call, before and behind the exits by an error.

* `LinearSystem.Session B w₀ log w`: the calls of `log`, the last one first, lead from `w₀` to `w`.
* `LinearSystem.chosen given log`, `warmStart log`, `factorizationsIn given log`, `solvesIn log`:
  what the calls of a log amount to.
* `LinearSystem.solve_system`: what a solve does to the linear system. `Backend.Sized` is what is
  asked of the iterative method, so that its answers can serve as starts.
* `LinearSystem.Books given log s`: the books agree with the log. `Books.factorize` and
  `Books.solve` are the steps, `Session.books` is the induction.
* `LinearSystem.solve_exchange`: a solve asks the iterative method from one start only.
-/

namespace RootFinding

open Action

variable {σ R K : Type}

namespace LinearSystem

/-! ## What the calls amount to -/

/-- The matrix that was given first. -/
def firstGiven : List (Call R K) → Option (Matrix R K)
  | [] => none
  | .factorize A _ :: log => (firstGiven log).or (some A)
  | .solve _ _ :: log => firstGiven log

/-- The method after the calls of a log: the one that was asked for, else that of the first matrix. -/
def chosen (given : Option SolveMethod) (log : List (Call R K)) : Option SolveMethod :=
  given.or ((firstGiven log).map .forMatrix)

/-- The last solution that was answered. -/
def lastSolution : List (Call R K) → Option (Vec K)
  | [] => none
  | .factorize _ _ :: log => lastSolution log
  | .solve _ (.ok x) :: _ => some x
  | .solve _ (.error _) :: log => lastSolution log

/-- The matrices that were given since the last solution. -/
def givenSince : List (Call R K) → List (Matrix R K)
  | [] => []
  | .factorize A _ :: log => A :: givenSince log
  | .solve _ (.ok _) :: _ => []
  | .solve _ (.error _) :: log => givenSince log

/-- The last solution, if every matrix that was given since has a column for each of its entries. -/
def warmStart (log : List (Call R K)) : Option (Vec K) :=
  (lastSolution log).filter fun x => (givenSince log).all fun A => x.size == A.cols

/-- Whether a call has factorised its matrix. -/
def Call.hasFactorized : Call R K → Bool
  | .factorize _ (.ok _) => true
  | _ => false

/-- The number of factorisations by triangular factors that succeeded. -/
def factorizationsIn (given : Option SolveMethod) (log : List (Call R K)) : Nat :=
  if chosen given log = some .lu ∨ chosen given log = some .splu then
    log.countP Call.hasFactorized
  else 0

/-- The number of solves that came after the first matrix. -/
def solvesIn : List (Call R K) → Nat
  | [] => 0
  | .factorize _ _ :: log => solvesIn log
  | .solve _ _ :: log => if (firstGiven log).isSome then solvesIn log + 1 else solvesIn log

section Logs

variable {given : Option SolveMethod} {log : List (Call R K)} {A : Matrix R K} {b x : Vec K}
  {outcome : Except (Thrown R K) Unit} {answered : Except (Thrown R K) (Vec K)}

theorem firstGiven_eq_none : firstGiven log = none ↔ lastGiven log = none := by
  induction log with
  | nil => exact iff_of_true rfl rfl
  | cons call log ih =>
    cases call with
    | factorize A outcome => simp [firstGiven, lastGiven]
    | solve b outcome => exact ih

@[simp] theorem chosen_factorize :
    chosen given (.factorize A outcome :: log) = some ((chosen given log).getD (.forMatrix A)) := by
  cases given with
  | some M => rfl
  | none => cases h : firstGiven log <;> simp [chosen, firstGiven, h]

@[simp] theorem chosen_solve : chosen given (.solve b answered :: log) = chosen given log := rfl

theorem firstGiven_eq_none_of_chosen (h : chosen given log = none) : firstGiven log = none := by
  unfold chosen at h
  simpa using (Option.or_eq_none_iff.1 h).2

/-- A new matrix drops the start when it is of another width. -/
@[simp] theorem warmStart_factorize :
    warmStart (.factorize A outcome :: log) = (warmStart log).filter fun x => x.size == A.cols := by
  simp [warmStart, lastSolution, givenSince, Option.filter_filter, Bool.and_comm]

@[simp] theorem warmStart_solved : warmStart (.solve b (.ok x) :: log) = some x := rfl

@[simp] theorem warmStart_failed {e : Thrown R K} :
    warmStart (.solve b (.error e) :: log) = warmStart log := rfl

theorem lastSolution_of_warmStart (h : x ∈ warmStart log) : lastSolution log = some x :=
  (Option.filter_eq_some_iff.1 h).1

/-- Before the first matrix nothing has been factorised. -/
theorem countP_of_firstGiven (h : firstGiven log = none) : log.countP Call.hasFactorized = 0 := by
  induction log with
  | nil => rfl
  | cons call log ih =>
    cases call with
    | factorize A outcome => simp [firstGiven] at h
    | solve b outcome => rw [List.countP_cons_of_neg (by simp [Call.hasFactorized]), ih h]

end Logs

end LinearSystem

variable [Scalar R] [Entry R K] {B : Backend σ R K} {A : Matrix R K}
  {F : Vec K → Work σ R K (Vec K)} {b : Vec K} {w w₀ t : Workspace σ R K}

/-! ## Sizes of answers -/

/-- The iterative method answers vectors of the size of the right-hand side, if the products and the
start are of that size. -/
structure Backend.Sized (B : Backend σ R K) : Prop where
  gmres {n : Nat} {apply : Vec K → Work σ R K (Vec K)} {s : KrylovSettings R} {b : Vec K}
    {start : Option (Vec K)} :
    (∀ v w, v.size = n → (apply v).Ends w (fun y _ => y.size = n) (fun _ _ => True)) →
    b.size = n → (∀ x ∈ start, x.size = n) →
    ∀ w, (B.gmres apply s b start).Ends w (fun r _ => r.1.size = n) (fun _ _ => True)

omit [Scalar R] [Entry R K] in
/-- Any vector fits its size, for entries of any kind. -/
theorem Vec.fits_of_size {v : Vec K} {n : Nat} (hv : v.size = n) : v.Fits (fun _ => True) n :=
  ⟨hv, fun _ _ => trivial⟩

theorem Backend.standard_sized : (Backend.standard : Backend σ R K).Sized where
  gmres happly hb hstart w := by
    refine (Gmres.solve_safe (I := fun _ => True) (Φ := fun _ => True) Entry.closed_true
      (fun v hv u _ => ?_) (Vec.fits_of_size hb) (fun x hx => Vec.fits_of_size (hstart x hx)) w
      trivial).mono (fun _ _ hr => hr.2.size) (fun _ _ _ => trivial)
    exact (happly v u hv.size).mono (fun _ _ hy => ⟨trivial, Vec.fits_of_size hy⟩)
      (fun _ _ _ => ⟨trivial, fun _ _ => trivial⟩)

theorem Operator.apply_size {A : Operator R K} (hA : A.height = A.cols) {v : Vec K}
    (hv : v.size = A.cols) (w : Workspace σ R K) :
    (A.apply F v).Ends w (fun y _ => y.size = A.height) (fun _ _ => True) := by
  induction A generalizing w with
  | concrete A => exact List.length_map _
  | derivative s x f0 =>
    rw [Operator.apply, ends_bind]
    refine ends_true.mono (fun y t _ => ?_) (fun _ _ _ => trivial)
    exact Ends.guard (I := fun _ => y.size = f0.size) (fun _ => trivial) not_not.1
      fun _ hy => hy
  | shifted A a ih =>
    rw [Operator.apply, ends_bind]
    refine (ih hA hv w).mono (fun y t hy => ?_) (fun _ _ _ => trivial)
    have hshift : (a • v : Vec K).size = A.height := (List.length_map _).trans (hv.trans hA.symm)
    rw [ends_ofFault_ok (Vec.align_of_size (hy.trans hshift.symm))]
    exact ((Vec.fits_of_size hy).zipWith (Vec.fits_of_size hshift)
      (T := fun _ => True) fun _ _ _ _ => trivial).size

theorem Matrix.apply_size (hA : A.isSquare = true) (v : Vec K) (w : Workspace σ R K) :
    (A.apply F v).Ends w (fun y _ => y.size = A.height) (fun _ _ => True) := by
  refine Ends.guard (I := fun _ => v.size = A.cols) (fun _ => trivial) not_not.1 fun t hv => ?_
  cases A with
  | dense A | sparse A => exact List.length_map _
  | free A => exact A.apply_size (beq_iff_eq.1 hA) hv t

namespace LinearSystem

/-! ## What a call does -/

/-- A solve is counted where there is a matrix, and stores its solution in the end; everything else
stays. -/
theorem solve_system (hB : B.Frames) (hF : ∀ v, Keeps Workspace.system (F v)) (b : Vec K)
    (w : Workspace σ R K) :
    (solve B F b).Ends w
      (fun x t => x.isFinite = true ∧ w.system.matrix.isSome = true ∧
        t.system = { w.system with last := some x, solves := w.system.solves + 1 })
      (fun _ t => t.system =
        { w.system with
          solves := if w.system.matrix.isSome then w.system.solves + 1 else w.system.solves }) := by
  rw [solve, ends_bind, ends_get]
  dsimp only
  split
  next hmatrix =>
    simp only [hmatrix, Option.isSome_none, Bool.false_eq_true, if_false]
    exact hmatrix ▸ rfl
  next A hmatrix =>
    simp only [ends_bind, change, ends_modify, hmatrix, Option.isSome_some, if_true]
    refine ((solveBy_keeps (fun _ _ => rfl) hB (fun v => A.apply_keeps hF v) _ b _).ends _).mono (fun x t ht => ?_)
      fun _ _ ht => ht
    refine (answer_spec x t).mono (fun y u hu => ?_) fun _ u hu => hu.2 ▸ ht
    obtain ⟨rfl, hfinite, rfl⟩ := hu
    refine ⟨hfinite, trivial, ?_⟩
    rw [ht]

/-- From a start that fits, the iterative method answers an entry for each column. -/
theorem solveIteratively_size (hB : B.Sized) {s : LinearSystem R K}
    (hlast : ∀ x ∈ s.last, x.size = A.cols) (b : Vec K) (w : Workspace σ R K) :
    (solveIteratively B F A s b).Ends w (fun x _ => x.size = A.cols) (fun _ _ => True) := by
  refine Ends.guard (I := fun _ => A.isSquare = true ∧ b.size = A.height)
    (fun _ => ends_throw.2 trivial) (fun h => by simpa using h) fun t ht => ?_
  have hsquare : A.height = A.cols := beq_iff_eq.1 ht.1
  have hside : (if A.isReal && b.isReal then b else b.widen).size = A.cols := by
    rw [← hsquare, ← ht.2]
    split
    · rfl
    · exact List.length_map _
  have hstart : ∀ x ∈ s.last.map fun x =>
      if A.isReal && b.isReal then x.realPart else x.widen, x.size = A.cols := by
    intro x hx
    obtain ⟨y, hy, rfl⟩ := Option.map_eq_some_iff.1 hx
    rw [← hlast y hy]
    split <;> exact List.length_map _
  refine (hB.gmres (fun v u _ => hsquare ▸ A.apply_size ht.1 v u) hside hstart t).bind
    (fun r u hr => ?_) fun _ _ _ => trivial
  cases hstop : r.2 with
  | converged => simpa [hstop] using hr
  | stopped k => simpa [hstop, Workspace.warn] using hr

theorem solve_size (hB : B.Sized) (hmethod : w.system.method = some .gmres)
    (hmatrix : w.system.matrix = some A) (hlast : ∀ x ∈ w.system.last, x.size = A.cols)
    (b : Vec K) :
    (solve B F b).Ends w (fun x _ => x.size = A.cols) (fun _ _ => True) := by
  rw [solve, ends_bind, ends_get]
  simp only [hmatrix, hmethod, Option.getD_some, change, ends_bind, ends_modify, solveBy]
  exact (solveIteratively_size hB hlast b _).mono (fun x t hx =>
    (answer_spec x t).mono (fun _ _ h => h.1 ▸ hx) fun _ _ _ => trivial) fun _ _ _ => trivial

omit [Entry R K] in
/-- The iterative method takes every matrix. -/
theorem factorize_gmres (hmethod : w.system.method = some .gmres) :
    (factorize B A).eval w = (.ok (), { w with system := w.system.factorized A .gmres none }) := by
  rw [factorize, eval_bind, eval_get]
  simp only [hmethod, Option.getD_some]
  rfl

/-! ## Sessions -/

/-- The calls of the log, the last one first, lead from one workspace to another. Between the calls
the rest of the workspace may change. -/
inductive Session (B : Backend σ R K) (w₀ : Workspace σ R K) :
    List (Call R K) → Workspace σ R K → Prop
  | start : Session B w₀ [] w₀
  | elsewhere {log : List (Call R K)} {w t : Workspace σ R K} (before : Session B w₀ log w)
    (system : t.system = w.system) : Session B w₀ log t
  | factorize {log : List (Call R K)} {w t : Workspace σ R K} {A : Matrix R K}
    {outcome : Except (Thrown R K) Unit} (before : Session B w₀ log w)
    (call : (LinearSystem.factorize B A).eval w = (outcome, t)) :
    Session B w₀ (.factorize A outcome :: log) t
  | solve {log : List (Call R K)} {w t : Workspace σ R K} {F : Vec K → Work σ R K (Vec K)}
    {b : Vec K} {outcome : Except (Thrown R K) (Vec K)} (before : Session B w₀ log w)
    (products : ∀ v, Keeps Workspace.system (F v))
    (call : (LinearSystem.solve B F b).eval w = (outcome, t)) :
    Session B w₀ (.solve b outcome :: log) t

section Sessions

variable {log : List (Call R K)} {given : Option SolveMethod} {krylov : KrylovSettings R}
  {M : SolveMethod}

/-- A session from a fresh handle is its history. -/
theorem Session.history (h : Session B w₀ log w) (fresh : w₀.system = .fresh given krylov) :
    History B log w := by
  induction h with
  | start => exact .fresh given krylov fresh
  | elsewhere before system ih => exact .elsewhere ih system
  | factorize before call ih => exact .factorize ih call
  | solve before products call ih => exact .solve ih products call

omit [Entry R K] in
theorem Handle.matrix_eq {s : LinearSystem R K}
    {given : Option (Matrix R K × Except (Thrown R K) Unit)} (h : Handle B s given) :
    s.matrix = given.map Prod.fst := by
  cases h with
  | empty matrix => exact matrix
  | prepared _ matrix _ => exact matrix
  | declined _ matrix _ _ => exact matrix

/-- A method that has been chosen stays, whatever is called. -/
theorem Session.method_kept (hB : B.Frames) (h : Session B w₀ log w)
    (hM : w₀.system.method = some M) : w.system.method = some M := by
  induction h with
  | start => exact hM
  | elsewhere before system ih => rw [system, ih]
  | @factorize log w t A outcome before call ih =>
    have hmethod := factorize_method B A w
    rw [ih] at hmethod
    cases outcome with
    | ok => exact hmethod.ok call
    | error e => exact hmethod.error call
  | @solve log w t F b outcome before products call ih =>
    have hsystem := solve_system hB products b w
    cases outcome with
    | ok x => rw [(hsystem.ok call).2.2, ih]
    | error e => rw [hsystem.error call, ih]

/-! ## The books -/

/-- What the linear system has written down agrees with the calls of the log, where `given` is the
method that was asked for. -/
structure Books (given : Option SolveMethod) (log : List (Call R K)) (s : LinearSystem R K) :
    Prop where
  method : s.method = chosen given log
  /-- Only the iterative method drops a solution. -/
  last : s.last = if chosen given log = some .gmres then warmStart log else lastSolution log
  factorizations : s.factorizations = factorizationsIn given log
  solves : s.solves = solvesIn log
  finite : ∀ x ∈ lastSolution log, x.isFinite = true
  fits : chosen given log = some .gmres → ∀ x ∈ warmStart log, ∀ A outcome,
    lastGiven log = some (A, outcome) → x.size = A.cols
  unsolved : firstGiven log = none → lastSolution log = none

/-- What stands in the books when the next matrix comes, by the method that it will be given to. -/
theorem Books.ahead {s : LinearSystem R K} (h : Books given log s)
    (hM : (chosen given log).getD (.forMatrix A) = M) :
    s.last = (if M = .gmres then warmStart log else lastSolution log) ∧
      s.factorizations = if M = .lu ∨ M = .splu then log.countP Call.hasFactorized else 0 := by
  rw [h.last, h.factorizations, factorizationsIn]
  cases hchosen : chosen given log with
  | some N =>
    rw [hchosen] at hM
    cases hM
    simp
  | none =>
    have hfirst := firstGiven_eq_none_of_chosen hchosen
    have hlast := h.unsolved hfirst
    simp [hlast, warmStart, countP_of_firstGiven hfirst]

theorem Books.factorize {outcome : Except (Thrown R K) Unit} (h : Books given log w.system)
    (call : (LinearSystem.factorize B A).eval w = (outcome, t)) :
    Books given (.factorize A outcome :: log) t.system := by
  obtain ⟨M, hM⟩ : ∃ M, (chosen given log).getD (.forMatrix A) = M := ⟨_, rfl⟩
  obtain ⟨hlast, hcount⟩ := h.ahead hM
  have hspec := factorize_spec B A w
  rw [h.method, hM] at hspec
  have hchosen : chosen given (.factorize A outcome :: log) = some M := by
    rw [chosen_factorize, hM]
  have hunsolved : firstGiven (.factorize A outcome :: log) = none →
      lastSolution (.factorize A outcome :: log) = none := by simp [firstGiven]
  have hfits : chosen given (.factorize A outcome :: log) = some .gmres →
      ∀ x ∈ warmStart (.factorize A outcome :: log), ∀ A' outcome',
        lastGiven (.factorize A outcome :: log) = some (A', outcome') → x.size = A'.cols := by
    intro _ x hx A' outcome' hgiven
    cases hgiven
    rw [warmStart_factorize] at hx
    exact beq_iff_eq.1 (Option.filter_eq_some_iff.1 hx).2
  cases outcome with
  | ok =>
    obtain ⟨factors, -, rfl⟩ := hspec.ok call
    refine ⟨?_, ?_, ?_, ?_, h.finite, hfits, hunsolved⟩
    · rw [hchosen, factorized_method]
    · rw [hchosen]
      cases M with
      | gmres => simp [factorized, hlast]
      | lu | splu | lstsq => simp [factorized, hlast, lastSolution]
    · rw [factorizationsIn, hchosen]
      cases M with
      | lu | splu => simp [factorized, hcount, List.countP_cons, Call.hasFactorized]
      | gmres | lstsq => simp [factorized, hcount]
    · rw [solvesIn, ← h.solves]
      cases M <;> rfl
  | error e =>
    obtain ⟨hcause, rfl⟩ := hspec.error call
    refine ⟨hchosen.symm, ?_, ?_, h.solves, h.finite, hfits, hunsolved⟩
    · simp [hchosen, hlast, hcause.ne_gmres, lastSolution]
    · simp [factorizationsIn, hchosen, hcount, Call.hasFactorized]

theorem Books.solve {outcome : Except (Thrown R K) (Vec K)} (hB : B.Frames) (hsized : B.Sized)
    (h : Books given log w.system) (hmatrix : w.system.matrix = (lastGiven log).map Prod.fst)
    (products : ∀ v, Keeps Workspace.system (F v))
    (call : (LinearSystem.solve B F b).eval w = (outcome, t)) :
    Books given (.solve b outcome :: log) t.system := by
  have hsystem := solve_system hB products b w
  have hsome : w.system.matrix.isSome = (firstGiven log).isSome := by
    rw [hmatrix, Option.isSome_map, Bool.eq_iff_iff, ← not_iff_not]
    simp [firstGiven_eq_none]
  cases outcome with
  | ok x =>
    obtain ⟨hfinite, hstored, ht⟩ := hsystem.ok call
    rw [ht]
    refine ⟨h.method, ?_, h.factorizations, ?_, ?_, ?_, ?_⟩
    · exact (ite_self _).symm
    · rw [solvesIn, ← hsome, if_pos hstored, ← h.solves]
    · intro y hy
      cases hy
      exact hfinite
    · intro hchosen y hy A outcome hA
      cases hy
      rw [chosen_solve] at hchosen
      have hA' : w.system.matrix = some A := by
        rw [hmatrix]
        exact congrArg (Option.map Prod.fst) hA
      refine (solve_size hsized (h.method.trans hchosen) hA' (fun z hz => ?_) b).ok call
      rw [h.last, if_pos hchosen] at hz
      exact h.fits hchosen z hz A outcome hA
    · intro hnone
      rw [hsome, show firstGiven log = none from hnone] at hstored
      cases hstored
  | error e =>
    rw [hsystem.error call]
    refine ⟨h.method, h.last, h.factorizations, ?_, h.finite, h.fits, h.unsolved⟩
    rw [solvesIn, ← hsome, ← h.solves]

/-- The books agree with the calls of every session from a fresh handle. -/
theorem Session.books (hB : B.Frames) (hsized : B.Sized) (fresh : w₀.system = .fresh given krylov)
    (h : Session B w₀ log w) : Books given log w.system := by
  induction h with
  | start =>
    rw [fresh]
    refine ⟨?_, (ite_self _).symm, (ite_self _).symm, rfl, ?_, ?_, fun _ => rfl⟩
    · simp [chosen, firstGiven, LinearSystem.fresh]
    · simp [lastSolution]
    · simp [warmStart, lastSolution]
  | elsewhere before system ih => exact system ▸ ih
  | factorize before call ih => exact ih.factorize call
  | solve before products call ih =>
    exact ih.solve hB hsized ((before.history fresh).handle hB).matrix_eq products call

/-! ## The starts of the iterative method -/

/-- What the iterative method may be given after the calls of a log: nothing, or the warm start as a
vector of the kind of numbers that the iteration is done in. -/
def IsStart (log : List (Call R K)) (start : Option (Vec K)) : Prop :=
  ∃ isReal : Bool, start = (warmStart log).map fun x => if isReal then x.realPart else x.widen

/-- With the warm start as its stored vector a solve asks the iterative method from no other start:
any method that agrees from there can stand in for it. -/
theorem solve_exchange (hmethod : w.system.method = some .gmres)
    (hlast : w.system.last = warmStart log)
    {g : (Vec K → Work σ R K (Vec K)) → KrylovSettings R → Vec K → Option (Vec K) →
      Work σ R K (Vec K × Gmres.Outcome)}
    (hg : ∀ apply s side start, IsStart log start →
      g apply s side start = B.gmres apply s side start) (b : Vec K) :
    (solve { B with gmres := g } F b).eval w = (solve B F b).eval w := by
  have hsolve : ∀ A, solveIteratively { B with gmres := g } F A w.system b =
      solveIteratively B F A w.system b := by
    intro A
    rw [solveIteratively, solveIteratively, hlast]
    dsimp only
    rw [hg _ _ _ _ ⟨_, rfl⟩]
  rw [solve, solve, eval_bind, eval_bind, eval_get]
  dsimp only
  split
  · rfl
  · rw [hmethod, Option.getD_some, solveBy, solveBy, hsolve]

end Sessions

end LinearSystem

/-- **The books of a linear system.**  After any calls of a handle that was fresh, with matrices of
any form and size, its method is the one that was asked for or that of the first matrix, and no
later call changes it; the factorisations and solves that it has counted are those of the calls. By
the iterative method the stored vector is the last solution, dropped once a matrix of another width
is given: a finite vector with an entry for each column of the matrix. A solve asks the iterative
method from there only, replaces the vector by what it answers, and leaves it alone where it ends
with an error. -/
theorem LinearSystem.session_books (hB : B.Frames) (hsized : B.Sized) {given : Option SolveMethod}
    {krylov : KrylovSettings R} {log : List (Call R K)} (fresh : w₀.system = .fresh given krylov)
    (session : Session B w₀ log w) :
    Books given log w.system ∧
    (∀ later t M, Session B w later t → w.system.method = some M → t.system.method = some M) ∧
    ∀ F b, (∀ v, Keeps Workspace.system (F v)) →
      (solve B F b).Ends w (fun x t => t.system.last = some x)
        (fun _ t => t.system.last = w.system.last) ∧
      (w.system.method = some .gmres →
        w.system.last = warmStart log ∧
        (∀ x ∈ warmStart log, lastSolution log = some x ∧ x.isFinite = true ∧
          ∀ A outcome, lastGiven log = some (A, outcome) → x.size = A.cols) ∧
        ∀ g, (∀ apply s side start, IsStart log start →
            g apply s side start = B.gmres apply s side start) →
          (solve { B with gmres := g } F b).eval w = (solve B F b).eval w) := by
  have hbooks := session.books hB hsized fresh
  refine ⟨hbooks, fun later t M h hM => h.method_kept hB hM, fun F b products => ⟨?_, ?_⟩⟩
  · refine (solve_system hB products b w).mono (fun x t ht => ?_) fun e t ht => ?_
    · rw [ht.2.2]
    · rw [ht]
  · intro hmethod
    have hchosen := hbooks.method.symm.trans hmethod
    have hlast : w.system.last = warmStart log := hbooks.last.trans (if_pos hchosen)
    refine ⟨hlast, fun x hx => ?_, fun g hg => ?_⟩
    · have hsolution := lastSolution_of_warmStart hx
      exact ⟨hsolution, hbooks.finite x hsolution, hbooks.fits hchosen x hx⟩
    · exact solve_exchange hmethod hlast hg b

/-! ## A session -/

/-- A workspace with a fresh handle for the iterative method. -/
noncomputable def iterativeWorkspace : Workspace Unit Exact Exact :=
  { Run.emptyWorkspace () with system := .fresh (some .gmres) .standard }

/-- A matrix of one row. -/
def rowMatrix (xs : List Exact) : Matrix Exact Exact := .dense (.ofRow xs)

def zeroSide : Vec Exact := .ofList [.real 0]

/-- The iterative method answers the right-hand side zero at once. -/
theorem gmres_zero (apply : Vec Exact → Work Unit Exact Exact (Vec Exact))
    (s : KrylovSettings Exact) (start : Option (Vec Exact)) :
    Gmres.solve apply s zeroSide start = pure (zeroSide, .converged) := by
  have hnorm : zeroSide.norm = Exact.real 0 :=
    (Vec.Reads.norm_single (v := zeroSide) (x := 0) rfl).trans (by simp)
  unfold Gmres.solve
  rw [hnorm, if_pos (by norm_num [Exact.same_iff])]

theorem zero_solved {w : Workspace Unit Exact Exact} {a : Exact}
    (hmethod : w.system.method = some .gmres) (hmatrix : w.system.matrix = some (rowMatrix [a]))
    (F : Vec Exact → Work Unit Exact Exact (Vec Exact)) :
    ∃ t, (LinearSystem.solve Backend.standard F zeroSide).eval w = (.ok zeroSide, t) := by
  have hsolved : ∀ s t, (LinearSystem.solveIteratively Backend.standard F (rowMatrix [a]) s
      zeroSide).Ends t (fun x _ => x = zeroSide) (fun _ _ => False) := by
    intro s t
    have hfits : (!(rowMatrix [a]).isSquare || decide (zeroSide.size ≠ (rowMatrix [a]).height)) =
        false := rfl
    rw [LinearSystem.solveIteratively]
    refine Ends.guard (I := fun _ => True) (fun h => ?_) (fun _ => trivial) fun t _ => ?_
    · exact absurd (hfits.symm.trans h) Bool.false_ne_true
    · dsimp only [Backend.standard]
      rw [show ((rowMatrix [a]).isReal && zeroSide.isReal) = true from rfl, if_pos rfl, gmres_zero]
      rfl
  have hends : (LinearSystem.solve Backend.standard F zeroSide).Ends w
      (fun x _ => x = zeroSide) (fun _ _ => False) := by
    rw [LinearSystem.solve, ends_bind, ends_get]
    simp only [hmatrix, hmethod, Option.getD_some, LinearSystem.change, ends_bind, ends_modify,
      LinearSystem.solveBy]
    refine (hsolved _ _).mono (fun x t hx => ?_) fun _ _ h => h
    refine (LinearSystem.answer_spec x t).mono (fun _ _ h => h.1.trans hx) fun _ _ h => ?_
    rw [hx] at h
    cases h.1
  obtain ⟨_, t, ht, rfl⟩ := hends.exists_ok
  exact ⟨t, ht⟩

/-- The calls of a handle for two matrices of one column. -/
def servedLog : List (LinearSystem.Call Exact Exact) :=
  [.factorize (rowMatrix [.real 0]) (.ok ()),
    .solve zeroSide (.ok zeroSide),
    .factorize (rowMatrix [.real 1]) (.ok ())]

/-- A solution stays as the start for another matrix of one column, and is dropped with a matrix of
two. -/
theorem LinearSystem.iterative_books :
    ∃ w t, Session Backend.standard iterativeWorkspace servedLog w ∧
      w.system.last = some zeroSide ∧ w.system.solves = 1 ∧
      w.system.factorizations = 0 ∧
      Session Backend.standard iterativeWorkspace
        (.factorize (rowMatrix [.real 1, .real 0]) (.ok ()) :: servedLog) t ∧
      t.system.last = none ∧ t.system.method = some .gmres := by
  obtain ⟨w₁, h₁, hmethod, hmatrix⟩ : ∃ w₁, (factorize Backend.standard (rowMatrix [.real 1])).eval
      iterativeWorkspace = (.ok (), w₁) ∧ w₁.system.method = some .gmres ∧
        w₁.system.matrix = some (rowMatrix [.real 1]) := ⟨_, factorize_gmres rfl, rfl, rfl⟩
  obtain ⟨w₂, h₂⟩ := zero_solved hmethod hmatrix fun v => pure v
  have hsolved : Session Backend.standard iterativeWorkspace _ w₂ :=
    .solve (.factorize .start h₁) (fun v => keeps_pure v) h₂
  obtain ⟨w, h₃, hw⟩ : ∃ w, (factorize Backend.standard (rowMatrix [.real 0])).eval w₂ = (.ok (), w) ∧
      w.system.method = some .gmres :=
    ⟨_, factorize_gmres (hsolved.method_kept Backend.standard_frames rfl), rfl⟩
  have hserved : Session Backend.standard iterativeWorkspace servedLog w := hsolved.factorize h₃
  obtain ⟨t, h₄, ht⟩ : ∃ t, (factorize Backend.standard (rowMatrix [.real 1, .real 0])).eval w =
      (.ok (), t) ∧ t.system.method = some .gmres := ⟨_, factorize_gmres hw, rfl⟩
  have hwidened := hserved.factorize h₄
  obtain ⟨hbooks, -, hcalls⟩ :=
    session_books Backend.standard_frames Backend.standard_sized rfl hserved
  obtain ⟨hbooks', -, -⟩ :=
    session_books Backend.standard_frames Backend.standard_sized rfl hwidened
  refine ⟨w, t, hserved, ?_, ?_, ?_, hwidened, ?_, ht⟩
  · exact ((hcalls (fun v => pure v) (.ofList []) fun v => keeps_pure v).2 hw).1
  · exact hbooks.solves
  · exact hbooks.factorizations
  · exact hbooks'.last

end RootFinding
