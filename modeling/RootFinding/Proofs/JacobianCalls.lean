import RootFinding.Proofs.Traversal
import RootFinding.Number

/-!
# Calls for Jacobians

What a call for a Jacobian leaves behind, over any scalars, for every problem and whatever the
functions of the caller answer or raise.

* `Matrix.entries`: the entries that a matrix keeps.
* `Problem.Built u fu w J t`: the call at `u` from `w` has answered `J` and left `t`: the matrix has
  the shape of a Jacobian and finite entries, and it is stored and counted.
* `Problem.jacobianAt_spec`: a call ends so, or in a differentiation failure that leaves the stored
  Jacobian and the count as they were.
* `Problem.Asked p s w log t`: from `w` to `t` Jacobians were asked for, and the calls ended as in
  `log`. `Problem.Asked.stored` is the induction over it.
-/

namespace RootFinding

open Action

variable {σ R K : Type}

/-! ## One call -/

/-- The entries that a matrix keeps, row by row; a free matrix keeps none. -/
def Matrix.entries : Matrix R K → List K
  | dense A => A.rows.flatten
  | sparse A => A.places.rows.flatten.filterMap id
  | free _ => []

variable [Scalar R] [Entry R K]

theorem Matrix.isFinite_iff_entries {A : Matrix R K} :
    A.isFinite = true ↔ ∀ x ∈ A.entries, Entry.isFinite x = true := by
  cases A with
  | dense A =>
    simp only [isFinite, Dense.isFinite, Grid.all, List.all_eq_true, entries, List.mem_flatten]
    constructor
    · rintro h x ⟨r, hr, hx⟩
      exact h r hr x hx
    · intro h r hr x hx
      exact h x ⟨r, hr, hx⟩
  | sparse A =>
    simp only [isFinite, Sparse.isFinite, Grid.all, List.all_eq_true, entries, List.mem_filterMap,
      List.mem_flatten, id_eq]
    constructor
    · rintro h x ⟨_, ⟨r, hr, hx⟩, rfl⟩
      exact h r hr (some x) hx
    · intro h r hr place hplace
      cases place with
      | none => rfl
      | some x => exact h x ⟨some x, ⟨r, hr, hplace⟩, rfl⟩
  | free A => simp [isFinite, entries]

omit [Scalar R] in
theorem Thrown.ofDifferentiation_kind [Written R] (e : Thrown R K) :
    e.ofDifferentiation.kind = .differentiation := by
  cases e with
  | failure f =>
    by_cases hkind : f.kind = .differentiation
    · rw [ofDifferentiation, if_pos hkind]
      exact hkind
    · rw [ofDifferentiation, if_neg hkind]
  | fault f => rfl

namespace Problem

/-- A matrix that can serve has the shape of a Jacobian and finite entries. -/
theorem sound_of_defect {J : Matrix R K} {m : Option Nat} {n : Nat}
    (h : jacobianDefect? J m n = none) :
    (∀ k ∈ m, J.shape = [k, n]) ∧ J.isFinite = true := by
  dsimp only [jacobianDefect?] at h
  split at h
  · cases h
  next hshape =>
    split at h
    · cases h
    next hfinite =>
      refine ⟨fun k hk => ?_, by simpa using hfinite⟩
      cases hk
      simpa using hshape

theorem kind_of_defect {J : Matrix R K} {m : Option Nat} {n : Nat} {f : Failure R K}
    (h : jacobianDefect? J m n = some f) : f.kind = .differentiation := by
  dsimp only [jacobianDefect?] at h
  split at h
  · cases h
    rfl
  · split at h
    · cases h
      rfl
    · cases h

/-- A call for the Jacobian at `u`, where the residual is `fu`, has answered `J` in the workspace
`w` and left `t`. -/
structure Built (u : Vec K) (fu : Option (Vec K)) (w : Workspace σ R K) (J : Matrix R K)
    (t : Workspace σ R K) : Prop where
  shape : ∀ f ∈ fu, J.shape = [f.size, u.size]
  finite : ∀ x ∈ J.entries, Entry.isFinite x = true
  stored : t.jacobian = some J
  counted : t.jacobians = w.jacobians + 1

theorem Built.height {u f : Vec K} {w t : Workspace σ R K} {J : Matrix R K}
    (h : Built u (some f) w J t) : J.height = f.size :=
  (List.cons.inj (h.shape f rfl)).1

/-- The making of a matrix reaches neither the stored Jacobian nor the count: differences evaluate
the residual, and an analytic Jacobian is a call of the caller's function. -/
theorem rawJacobian_keeps (p : Problem σ R K) (s : JacobianSettings R) (u : Vec K)
    (fu : Option (Vec K)) :
    Keeps (fun w => (w.jacobian, w.jacobians)) (p.rawJacobian s u fu) := by
  have hkeeps := Work.keeps_hereditary (σ := σ) (R := R) (K := K)
    (π := fun w => (w.jacobian, w.jacobians)) fun _ _ => rfl
  have hevaluate := fun v => p.evaluate_of hkeeps (fun _ => rfl) (fun _ _ => rfl)
    (fun _ _ _ _ => rfl) (fun _ _ _ _ => rfl) v
  exact p.rawJacobian_of hkeeps.toStraight hevaluate (fun _ _ _ _ => rfl) s u fu

/-- A Jacobian is built, stored and counted, or the call fails and nothing of it is left. -/
theorem jacobianAt_spec (p : Problem σ R K) (s : JacobianSettings R) (u : Vec K)
    (fu : Option (Vec K)) (w : Workspace σ R K) :
    (p.jacobianAt s u fu).Ends w (Built u fu w)
      (fun e t => (∃ f, e = .failure f ∧ f.kind = .differentiation) ∧
        t.jacobian = w.jacobian ∧ t.jacobians = w.jacobians) := by
  simp only [jacobianAt, ends_bind, ends_mapError]
  refine ((p.rawJacobian_keeps s u fu).ends w).mono (fun J t ht => ?_) (fun e t ht => ?_)
  · obtain ⟨hstored, hcount⟩ := Prod.mk.inj ht
    cases hdefect : jacobianDefect? J (fu.map Vec.size) u.size with
    | some f => exact ⟨⟨f, rfl, kind_of_defect hdefect⟩, hstored, hcount⟩
    | none =>
      obtain ⟨hshape, hfinite⟩ := sound_of_defect hdefect
      exact {
        shape := fun f hf => hshape f.size (Option.mem_map_of_mem _ hf)
        finite := Matrix.isFinite_iff_entries.1 hfinite
        stored := rfl
        counted := congrArg (· + 1) hcount }
  · obtain ⟨hstored, hcount⟩ := Prod.mk.inj ht
    exact ⟨⟨_, rfl, e.ofDifferentiation_kind⟩, hstored, hcount⟩

/-! ## Any calls -/

/-- From the first workspace to the last Jacobians were asked for, each at a point of its own, and
the calls ended as in the list. Between the calls the rest of the workspace may change. -/
inductive Asked (p : Problem σ R K) (s : JacobianSettings R) (w : Workspace σ R K) :
    List (Except (Thrown R K) (Matrix R K)) → Workspace σ R K → Prop
  | start : Asked p s w [] w
  | elsewhere {log : List (Except (Thrown R K) (Matrix R K))} {t v : Workspace σ R K}
    (before : Asked p s w log t) (jacobian : v.jacobian = t.jacobian)
    (jacobians : v.jacobians = t.jacobians) : Asked p s w log v
  | call {log : List (Except (Thrown R K) (Matrix R K))} {t v : Workspace σ R K} {u : Vec K}
    {fu : Option (Vec K)} {outcome : Except (Thrown R K) (Matrix R K)}
    (before : Asked p s w log t) (call : (p.jacobianAt s u fu).eval t = (outcome, v)) :
    Asked p s w (log ++ [outcome]) v

omit [Scalar R] [Entry R K] in
/-- The Jacobians that were answered, in their order. -/
def answered (log : List (Except (Thrown R K) (Matrix R K))) : List (Matrix R K) :=
  log.filterMap Except.toOption

variable {p : Problem σ R K} {s : JacobianSettings R} {w t : Workspace σ R K}
  {log : List (Except (Thrown R K) (Matrix R K))}

theorem Asked.stored (h : p.Asked s w log t) :
    t.jacobians = w.jacobians + (answered log).length ∧
      t.jacobian = (answered log).getLast?.or w.jacobian := by
  induction h with
  | start => exact ⟨rfl, rfl⟩
  | elsewhere before jacobian jacobians ih =>
    rw [jacobian, jacobians]
    exact ih
  | @call log t v u fu outcome before call ih =>
    obtain ⟨hcount, hlast⟩ := ih
    cases outcome with
    | error e =>
      obtain ⟨-, hjacobian, hjacobians⟩ := (p.jacobianAt_spec s u fu t).error call
      have hsame : answered (log ++ [.error e]) = answered log := by
        simp [answered, Except.toOption]
      rw [hsame, hjacobian, hjacobians]
      exact ⟨hcount, hlast⟩
    | ok J =>
      have hbuilt := (p.jacobianAt_spec s u fu t).ok call
      have hmore : answered (log ++ [.ok J]) = answered log ++ [J] := by
        simp [answered, Except.toOption]
      rw [hmore, hbuilt.counted, hbuilt.stored, hcount]
      simp [Nat.add_assoc]

end Problem

/-- One unknown, with a Jacobian that answers the point itself. -/
def echoProblem : Problem Unit Numeral Number where
  residual := .returning fun x world => (.ok x, world)
  guess := ⟨[1], .ofList [.real 1.0]⟩
  jacobian := some fun x world => (.ok (.row x.entries), world)

end RootFinding
