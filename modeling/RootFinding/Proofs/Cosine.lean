import RootFinding.Proofs.Affine
import RootFinding.Proofs.DampedSystems
import RootFinding.Proofs.ZeroTolerance

/-!
# The cosine between two velocities

The uphill rule divides by the lengths of a velocity and of the last one that was taken, and looks
only whether the first of them is zero. The last one is not zero then either: a velocity of zero
solves the equations of a step only where the gradient vanishes, its step stays where it is, with or
without the second order correction, and so all later velocities are zero.

* `LevenbergMarquardt.Faithful c r`: the linear system of the step from `r` tells zero from what is
  not zero. `LevenbergMarquardt.faithful_of_direct`: elimination does.
* `LevenbergMarquardt.AtRest c r`: the gradient at the iterate of `r` is zero.
* `LevenbergMarquardt.Poised c r`: what holds between the steps. The last velocity that was taken is
  zero only at rest. `LevenbergMarquardt.Poised.next`: a step keeps it.
* `LevenbergMarquardt.HasTurn v last`: the cosine is a number between minus one and one, and the
  powers of the uphill rule are defined. `LevenbergMarquardt.hasTurn_of_isZero`: so it is if the
  last velocity is zero only where the new one is.
* `LevenbergMarquardt.isZero_of_rest`: along a run it is.
-/

open scoped Matrix

namespace RootFinding

open Action Exact ExactEntry

/-! ## Zeros -/

/-- An entry, finite or not, is left alone by a zero that is added to it. -/
class ExactZero (𝕜 : outParam Type) (K : Type) [RCLike 𝕜] [Entry Exact K] [ExactEntry 𝕜 K] :
    Prop where
  add_zero (x : K) : x + number 0 = x

instance instExactZero : ExactZero ℝ Exact where
  add_zero x := by
    cases x with
    | real y => exact congrArg real (add_zero y)
    | posInf | negInf | undefined => rfl

instance instExactZeroComplex : ExactZero ℂ ExactComplex where
  add_zero x := congrArg₂ ExactComplex.mk (ExactZero.add_zero x.re) (ExactZero.add_zero x.im)

section Zeros

variable (𝕜 : Type) {K : Type} [RCLike 𝕜] [Entry Exact K] [ExactEntry 𝕜 K] {v w : Vec K}

namespace Vec

theorem isZero_iff : v.isZero = true ↔ ∀ x ∈ v.toList, x = number (0 : 𝕜) :=
  List.all_eq_true.trans (forall₂_congr fun x _ => ExactEntry.isZero_iff x)

variable {𝕜} in
theorem reads_of_isZero {n : Nat} (hv : v.isZero = true) (hn : v.size = n) :
    v.Reads (0 : Fin n → 𝕜) := by
  rw [reads_iff]
  exact (List.eq_replicate_iff.2 ⟨hn, (isZero_iff 𝕜).1 hv⟩).trans (List.ofFn_const n _).symm

variable {𝕜} in
theorem Reads.isZero_eq_false {n : Nat} {x : Fin n → 𝕜} (hv : v.Reads x) {i : Fin n}
    (hne : x i ≠ 0) : v.isZero = false := by
  rw [← Bool.not_eq_true]
  intro h
  exact hne (congrFun (hv.inj (reads_of_isZero h hv.size)) i)

include 𝕜

theorem isZero_map {f : K → K} (hf : f (number (0 : 𝕜)) = number (0 : 𝕜)) (hv : v.isZero = true) :
    (v.map f).isZero = true :=
  (isZero_iff 𝕜).2 fun x hx => by
    obtain ⟨y, hy, rfl⟩ := List.mem_map.1 hx
    rw [(isZero_iff 𝕜).1 hv y hy, hf]

theorem isZero_zipWith {f : K → K → K}
    (hf : f (number (0 : 𝕜)) (number (0 : 𝕜)) = number (0 : 𝕜)) (hv : v.isZero = true)
    (hw : w.isZero = true) : (zipWith f v w).isZero = true := by
  induction v generalizing w with
  | nil => rfl
  | cons x v ih =>
    cases w with
    | nil => rfl
    | cons y w =>
      obtain ⟨hx, hv⟩ := Bool.and_eq_true_iff.1 hv
      obtain ⟨hy, hw⟩ := Bool.and_eq_true_iff.1 hw
      refine Bool.and_eq_true_iff.2 ⟨?_, ih hv hw⟩
      rw [(ExactEntry.isZero_iff x).1 hx, (ExactEntry.isZero_iff y).1 hy, hf]
      exact (ExactEntry.isZero_iff _).2 rfl

theorem isZero_add (hv : v.isZero = true) (hw : w.isZero = true) : (v + w).isZero = true :=
  isZero_zipWith 𝕜 (by rw [ExactEntry.add, add_zero]) hv hw

theorem isZero_sub (hv : v.isZero = true) (hw : w.isZero = true) : (v - w).isZero = true :=
  isZero_zipWith 𝕜 (by rw [ExactEntry.sub, sub_zero]) hv hw

theorem isZero_smul (a : ℝ) (hv : v.isZero = true) : (real a • v : Vec K).isZero = true :=
  isZero_map 𝕜 (by rw [ExactEntry.ofReal, ExactEntry.mul, mul_zero]) hv

theorem isZero_divideBy {a : ℝ} (ha : a ≠ 0) (hv : v.isZero = true) :
    (v.divideBy (real a)).isZero = true := by
  have hne : (a : 𝕜) ≠ 0 := RCLike.ofReal_ne_zero.2 ha
  exact isZero_map 𝕜 (by rw [ExactEntry.ofReal, ExactEntry.div _ hne, zero_div]) hv

theorem isZero_sub_self (hv : v.isFinite = true) : (v - v).isZero = true := by
  obtain ⟨x, hx⟩ := reads_of_isFinite (𝕜 := 𝕜) hv rfl
  have hzero := hx.sub hx
  rw [sub_self] at hzero
  exact hzero.isZero

/-- A zero that is added changes nothing, as far as it reaches. -/
theorem add_of_isZero [ExactZero 𝕜 K] {u : Vec K} (hv : v.isZero = true)
    (hsize : (u + v).size = u.size) : u + v = u := by
  induction u generalizing v with
  | nil => rfl
  | cons x u ih =>
    cases v with
    | nil => cases hsize
    | cons y v =>
      obtain ⟨hy, hv⟩ := Bool.and_eq_true_iff.1 hv
      have hhead : x + y = x := by
        rw [(ExactEntry.isZero_iff y).1 hy]
        exact ExactZero.add_zero x
      exact congrArg₂ List.cons hhead (ih hv (Nat.succ.inj hsize))

variable {𝕜} in
/-- The length of a zero vector is zero. -/
theorem euclidean_of_isZero {xs : List 𝕜} (h : (numbers xs : Vec K).isZero = true) :
    euclidean xs = 0 := by
  have hxs : ∀ x ∈ xs, x = 0 := fun x hx =>
    number_injective (K := K) ((isZero_iff 𝕜).1 h _ (List.mem_map_of_mem hx))
  rw [List.eq_replicate_of_mem hxs, euclidean, List.map_replicate, List.sum_replicate]
  simp

variable [ExactParts 𝕜 K]

theorem isFinite_neg (hv : v.isFinite = true) : (-v).isFinite = true := by
  obtain ⟨x, hx⟩ := reads_of_isFinite (𝕜 := 𝕜) hv rfl
  exact hx.neg.isFinite

theorem isZero_neg (hv : v.isFinite = true) : (-v).isZero = true ↔ v.isZero = true := by
  obtain ⟨x, hx⟩ := reads_of_isFinite (𝕜 := 𝕜) hv rfl
  constructor
  · intro hzero
    have hneg := hx.neg.inj (reads_of_isZero hzero hx.neg.size)
    rw [neg_eq_zero] at hneg
    rw [hneg] at hx
    exact hx.isZero
  · exact isZero_map 𝕜 (by rw [ExactParts.neg, neg_zero])

end Vec

end Zeros

section Products

/-- The product with a transposed matrix has one entry for each column. -/
theorem Matrix.applyTranspose_size {R K : Type} [Scalar R] [Entry R K] {A : Matrix R K}
    {v g : Vec K} (h : A.applyTranspose v = .ok g) : g.size = A.cols := by
  unfold Matrix.applyTranspose at h
  split at h
  · cases h
  · cases A with
    | dense A =>
      cases h
      simp [Dense.applyTranspose, Dense.apply, Dense.transpose, Grid.transpose, Grid.columns,
        Vec.size, Vec.toList, Vec.ofList, Matrix.cols]
    | sparse A =>
      cases h
      simp [Sparse.applyTranspose, Sparse.apply, Sparse.transpose, Grid.transpose, Grid.columns,
        Vec.size, Vec.toList, Vec.ofList, Matrix.cols, Sparse.cols]
    | free A => cases h

variable {σ 𝕜 K : Type} [RCLike 𝕜] [Entry Exact K] [ExactEntry 𝕜 K] {m n : Nat} {v : Vec K}
  {A : Matrix Exact K} {M : FieldMatrix 𝕜 m n}

/-- What a matrix takes zero to is zero, if the sizes fit. -/
theorem Matrix.Reads.apply_isZero (hA : A.Reads M) (hv : v.isZero = true)
    (F : Vec K → Work σ Exact K (Vec K)) (w : Workspace σ Exact K) :
    (A.apply F v).Ends w (fun y _ => y.isZero = true) (fun _ _ => True) := by
  by_cases hsize : v.size = n
  · obtain ⟨y, hy, happly⟩ := hA.apply (Vec.reads_of_isZero hv hsize)
    rw [Matrix.mulVec_zero] at hy
    refine ends_iff.2 ⟨fun y' w' h => ?_, fun _ _ _ => trivial⟩
    cases (happly F w).symm.trans h
    exact hy.isZero
  · unfold Matrix.apply
    rw [if_pos (by rwa [hA.cols])]
    trivial

/-- So is what the transposed matrix takes it to. -/
theorem Matrix.Reads.applyTranspose_isZero (hA : A.Reads M) (hv : v.isZero = true) {g : Vec K}
    (h : A.applyTranspose v = .ok g) : g.isZero = true := by
  have hsize : v.size = m := by
    by_contra hsize
    unfold Matrix.applyTranspose at h
    rw [if_pos (by rwa [hA.height])] at h
    cases h
  obtain ⟨g', hg', hreads⟩ := hA.applyTranspose hsize
  have hg := hreads 0 (Vec.reads_of_isZero hv hsize)
  rw [Matrix.mulVec_zero] at hg
  cases hg'.symm.trans h
  exact hg.isZero

end Products

/-! ## Velocities -/

namespace LevenbergMarquardt

section Velocities

variable {σ R K : Type} [Scalar R] [Entry R K] {a : LevenbergMarquardt R} {c : Setup σ R K}
  {r s s' t : Run σ R K (State R K)} {J A : Matrix R K} {v : Vec K} {w : Workspace σ R K}
  {taken : Bool}

/-- The step from `r` has got the Jacobian `J` and the matrix `A` in the state `s`, and the linear
system in `w` has the factors for its equations. -/
structure Prepares (c : Setup σ R K) (r : Run σ R K (State R K)) (J A : Matrix R K)
    (s : Run σ R K (State R K)) (w : Workspace σ R K) : Prop where
  model : (model c).eval r = (.ok (J, A), s)
  factorized : (LinearSystem.factorize c.backend
    (A.addDiagonal (s.ext.damping • s.ext.scaling))).eval s.work = (.ok (), w)

/-- The linear system of the step from `r` answers zero for the gradient only if that is zero, and
it answers zero for zero. -/
structure Faithful (c : Setup σ R K) (r : Run σ R K (State R K)) : Prop where
  gradient {J A : Matrix R K} {s : Run σ R K (State R K)} {w w' : Workspace σ R K} {g x : Vec K} :
    Prepares c r J A s w → J.applyTranspose r.fu = .ok g →
      (LinearSystem.solve c.backend c.problem.evaluate g).eval w = (.ok x, w') →
        x.isZero = true → g.isZero = true
  zero {J A : Matrix R K} {s : Run σ R K (State R K)} {w v v' : Workspace σ R K} {b x : Vec K} :
    Prepares c r J A s w → v.model = w.model → b.isZero = true → b.size = c.problem.size →
      (LinearSystem.solve c.backend c.problem.evaluate b).eval v = (.ok x, v') → x.isZero = true

/-- The step from `r` computes the velocity `v`, and leaves `s'`. -/
structure Computes (c : Setup σ R K) (r : Run σ R K (State R K)) (J A : Matrix R K)
    (s : Run σ R K (State R K)) (v : Vec K) (s' : Run σ R K (State R K)) : Prop where
  model : (model c).eval r = (.ok (J, A), s)
  velocity : (velocity c J A).eval s = (.ok v, s')

theorem Computes.modelled (h : Computes c r J A s v s') : Modelled c r J A s :=
  (model_modelled r).ok h.model

/-- The velocity is the solution for the gradient, turned round. -/
theorem Computes.solved (h : Computes c r J A s v s') :
    ∃ g w x, Prepares c r J A s w ∧ J.applyTranspose r.fu = .ok g ∧
      (LinearSystem.solve c.backend c.problem.evaluate g).eval w = (.ok x, s'.work) ∧ v = -x := by
  have hfu : s.fu = r.fu := by rw [Run.eq_of_rest h.modelled.rest]
  have hends : (LevenbergMarquardt.velocity c J A).Ends s (fun v s' => ∃ g w x,
      Prepares c r J A s w ∧ J.applyTranspose r.fu = .ok g ∧
        (LinearSystem.solve c.backend c.problem.evaluate g).eval w = (.ok x, s'.work) ∧ v = -x)
      (fun _ _ => True) := by
    simp only [LevenbergMarquardt.velocity, ends_bind, ends_get, ends_ofFault, Run.ends_update,
      Run.ends_onWork, ends_pure, hfu]
    refine ⟨fun g hg => ends_iff.2 ⟨fun _ w hw => ?_, fun _ _ _ => trivial⟩, fun _ _ => trivial⟩
    exact ends_iff.2 ⟨fun x w' hx => ⟨g, w, x, ⟨h.model, hw⟩, hg, hx, rfl⟩, fun _ _ _ => trivial⟩
  exact hends.ok h.velocity

/-- What the verdict on a velocity that was computed in `s'` has left in `t`. -/
inductive Follows (a : LevenbergMarquardt R) (c : Setup σ R K) (r : Run σ R K (State R K))
    (J : Matrix R K) (v : Vec K) (s' : Run σ R K (State R K)) :
    Bool → Run σ R K (State R K) → Prop
  | taken {t s'' : Run σ R K (State R K)} (du : Vec K)
    (corrected : (a.correctedStep c J v).eval s' = (.ok (some du), s''))
    (answered : c.problem.Answered (r.u + du) t.fu) (u : t.u = r.u + du)
    (velocity : t.ext.velocity = some v) : Follows a c r J v s' true t
  | refused {t : Run σ R K (State R K)} (velocity : t.ext.velocity = r.ext.velocity) :
    Follows a c r J v s' false t

theorem verdict_follows (hmodel : (model c).eval r = (.ok (J, A), s)) :
    (a.verdict c J A).Ends s
      (fun taken t => ∃ v s', Computes c r J A s v s' ∧ Follows a c r J v s' taken t)
      (fun _ _ => True) := by
  rw [verdict, ends_bind]
  refine ends_iff.2 ⟨fun v s' hvelocity => ?_, fun _ _ _ => trivial⟩
  have hcomputes : Computes c r J A s v s' := ⟨hmodel, hvelocity⟩
  obtain ⟨hu, -, hlast, -⟩ := held_of_velocity hmodel hvelocity
  rw [ends_bind]
  refine ends_iff.2 ⟨fun du s'' hcorrected => ?_, fun _ _ _ => trivial⟩
  have hkept := Run.eq_of_unworked (((a.correctedStep_keeps c J v).ends s').ok hcorrected)
  have hu' : s''.u = r.u := by rw [hkept, hu]
  have hlast' : s''.ext.velocity = r.ext.velocity := by rw [hkept, hlast]
  cases du with
  | none => exact ⟨v, s', hcomputes, .refused hlast'⟩
  | some du =>
    simp only [attempt, ends_bind, ends_get, Run.ends_evaluate, ends_ofFault, hu']
    refine (c.problem.evaluate_answered _ _).mono (fun fu w hfu => ?_) (fun _ _ _ => trivial)
    refine ⟨fun taken _ => ?_, fun _ _ => trivial⟩
    cases taken with
    | true => exact ⟨v, s', hcomputes, .taken du hcorrected hfu rfl rfl⟩
    | false => exact ⟨v, s', hcomputes, .refused hlast'⟩

/-- A step that returns has computed a velocity, and has come to a verdict on it. -/
theorem step_follows (r : Run σ R K (State R K)) :
    (a.step c).Ends r
      (fun _ t => ∃ J A s v s' taken, Computes c r J A s v s' ∧ Stepped a c r J A s taken t ∧
        Follows a c r J v s' taken t)
      (fun _ _ => True) := by
  have hfollows : (a.step c).Ends r
      (fun _ t => ∃ J A s v s' taken s'', Computes c r J A s v s' ∧
        (a.verdict c J A).eval s = (.ok taken, s'') ∧ Follows a c r J v s' taken t)
      (fun _ _ => True) := by
    rw [step_eq, ends_bind]
    refine ends_iff.2 ⟨?_, fun _ _ _ => trivial⟩
    rintro ⟨J, A⟩ s hmodel
    rw [ends_bind]
    refine ends_iff.2 ⟨fun taken t hverdict => ?_, fun _ _ _ => trivial⟩
    obtain ⟨v, s', hcomputes, hfollows⟩ := (verdict_follows hmodel).ok hverdict
    refine (settle_adapted taken t).mono (fun _ t' ht' => ?_) (fun _ _ h => h)
    obtain ⟨hu, hfu, -, hext⟩ := ht'
    refine ⟨J, A, s, v, s', taken, t, hcomputes, hverdict, ?_⟩
    cases hfollows with
    | taken du hcorrected hanswered hmoves hlast =>
      exact .taken du hcorrected (hfu ▸ hanswered) (hu.trans hmoves)
        ((congrArg (·.velocity) hext).trans hlast)
    | refused hlast => exact .refused ((congrArg (·.velocity) hext).trans hlast)
  refine ends_iff.2 ⟨fun _ t ht => ?_, fun _ _ _ => trivial⟩
  obtain ⟨J, A, s, v, s', taken, s'', hcomputes, hverdict, hfollows⟩ := hfollows.ok ht
  obtain ⟨J', A', s₁, taken', hstepped⟩ := (step_stepped r).ok ht
  -- both look at the same step
  cases hcomputes.model.symm.trans hstepped.model
  obtain ⟨s₂, hverdict'⟩ := hstepped.verdict
  cases hverdict.symm.trans hverdict'
  exact ⟨J, A, s, v, s', taken, hcomputes, hstepped, hfollows⟩

end Velocities

/-! ## At rest -/

section Rest

variable {σ R K : Type} [Scalar R] [Entry R K] {c : Setup σ R K} {r t : Run σ R K (State R K)}
  {J J' : Matrix R K}

/-- `J` is the Jacobian at the iterate of `r`, whenever it is made. -/
def IsJacobian (c : Setup σ R K) (r : Run σ R K (State R K)) (J : Matrix R K) : Prop :=
  ∀ w, ∃ w', (c.problem.jacobianAt r.ext.jacobians r.u (some r.fu)).eval w = (.ok J, w')

theorem IsJacobian.inj (h : IsJacobian c r J) (h' : IsJacobian c r J') : J' = J := by
  obtain ⟨w, hw⟩ := h r.work
  obtain ⟨w', hw'⟩ := h' r.work
  cases hw.symm.trans hw'
  rfl

theorem IsJacobian.congr (h : IsJacobian c r J) (hu : t.u = r.u) (hfu : t.fu = r.fu)
    (hsettings : t.ext.jacobians = r.ext.jacobians) : IsJacobian c t J := by
  unfold IsJacobian
  rw [hu, hfu, hsettings]
  exact h

/-- The gradient at the iterate of `r` is zero. -/
def AtRest (c : Setup σ R K) (r : Run σ R K (State R K)) : Prop :=
  ∃ J g, IsJacobian c r J ∧ J.applyTranspose r.fu = .ok g ∧ g.isZero = true

theorem AtRest.congr (h : AtRest c r) (hu : t.u = r.u) (hfu : t.fu = r.fu)
    (hsettings : t.ext.jacobians = r.ext.jacobians) : AtRest c t := by
  obtain ⟨J, g, hJ, hg, hzero⟩ := h
  exact ⟨J, g, hJ.congr hu hfu hsettings, hfu ▸ hg, hzero⟩

/-- What a step leaves is up to date: the residual is that of the iterate, and so is a Jacobian that
is kept. -/
structure Current (c : Setup σ R K) (r : Run σ R K (State R K)) : Prop where
  answered : c.problem.Answered r.u r.fu
  kept : r.ext.renew = false → ∀ J, r.work.jacobian = some J → IsJacobian c r J

/-- What holds between the steps: besides, the last velocity that was taken is zero only at rest. -/
structure Poised (c : Setup σ R K) (r : Run σ R K (State R K)) : Prop extends Current c r where
  finite : ∀ v, r.ext.velocity = some v → v.isFinite = true
  rest : ∀ v, r.ext.velocity = some v → v.isZero = true → AtRest c r

/-- The Jacobian of a step is that of the iterate, kept or made. -/
theorem Current.isJacobian {τ : Type} {part : σ → τ} {s : Run σ R K (State R K)} {A : Matrix R K}
    (hp : c.problem.Steady part) (hr : Current c r) (h : Modelled c r J A s) :
    IsJacobian c r J := by
  cases h with
  | kept renew stored _ => exact hr.kept renew J stored
  | renewed w _ made _ _ =>
    intro w'
    obtain ⟨w'', hagain, -⟩ := hp.jacobianAt_again made w'
    exact ⟨w'', hagain⟩

/-- A step leaves the run up to date. -/
theorem Current.next {τ : Type} {part : σ → τ} {a : LevenbergMarquardt R}
    {s : Run σ R K (State R K)} {A : Matrix R K} {taken : Bool} (hB : c.backend.Frames)
    (hp : c.problem.Steady part) (hr : Current c r) (h : Stepped a c r J A s taken t) :
    Current c (Run.recorded c r.u t) := by
  obtain ⟨gradient, velocity, hext⟩ := h.ext
  have hsettings : (Run.recorded c r.u t).ext.jacobians = r.ext.jacobians := by
    rw [Run.recorded_ext, hext, h.modelled.ext]
  refine ⟨?_, fun hkept J' hJ' => ?_⟩
  · rw [Run.recorded_u, Run.recorded_fu]
    cases taken with
    | true => exact h.moves rfl
    | false =>
      obtain ⟨hu, hfu⟩ := h.stays rfl
      rw [hu, hfu]
      exact hr.answered
  · rw [Run.recorded_ext, hext] at hkept
    obtain rfl : taken = false := hkept
    rw [Run.recorded_work, h.stored hB] at hJ'
    obtain rfl := Option.some.inj hJ'
    exact (hr.isJacobian hp h.modelled).congr ((Run.recorded_u ..).trans (h.stays rfl).1)
      ((Run.recorded_fu ..).trans (h.stays rfl).2) hsettings

theorem Current.headed {a : LevenbergMarquardt R} (hr : Current c r) :
    Current c (r.headed a.strategy) :=
  ⟨hr.answered, hr.kept⟩

/-- A run starts up to date. -/
theorem current_of_start {a : LevenbergMarquardt R} {world : σ}
    (hstart : Run.start a.strategy c world = .ok r) : Current c r := by
  have hprepared := start_ok (Run.start_prepared hstart)
  exact ⟨Run.start_answered hstart,
    fun hkept => absurd (hprepared.renew.symm.trans hkept) (by decide)⟩

end Rest

section Steps

variable {σ τ 𝕜 K : Type} [RCLike 𝕜] [Entry Exact K] [ExactEntry 𝕜 K] [ExactParts 𝕜 K]
  {a : LevenbergMarquardt Exact} {c : Setup σ Exact K} {part : σ → τ}
  {r s s' t : Run σ Exact K (State Exact K)} {J A : Matrix Exact K} {v : Vec K} {taken : Bool}
  {damping increase decrease floor : ℝ}

variable (𝕜) in
include 𝕜 in
theorem Computes.finite (h : Computes c r J A s v s') : v.isFinite = true := by
  obtain ⟨g, w, x, -, -, hx, rfl⟩ := h.solved
  exact Vec.isFinite_neg 𝕜 ((LinearSystem.solve_finite _ _ _ _).ok hx)

variable (𝕜) in
include 𝕜 in
/-- A velocity of zero solves the equations of a step at rest only. -/
theorem Computes.atRest (hf : Faithful c r) (hJ : IsJacobian c r J) (h : Computes c r J A s v s')
    (hv : v.isZero = true) : AtRest c r := by
  obtain ⟨g, w, x, hprepares, hg, hx, rfl⟩ := h.solved
  have hxzero := (Vec.isZero_neg 𝕜 ((LinearSystem.solve_finite _ _ _ _).ok hx)).1 hv
  exact ⟨J, g, hJ, hg, hf.gradient hprepares hg hx hxzero⟩

variable (𝕜) in
include 𝕜 in
/-- At rest the velocity is zero. -/
theorem Computes.isZero (hf : Faithful c r) (hJ : IsJacobian c r J)
    (hcols : J.cols = c.problem.size) (h : Computes c r J A s v s') (hrest : AtRest c r) :
    v.isZero = true := by
  obtain ⟨g, w, x, hprepares, hg, hx, rfl⟩ := h.solved
  obtain ⟨J', g', hJ', hg', hzero⟩ := hrest
  obtain rfl := hJ.inj hJ'
  cases hg'.symm.trans hg
  exact (Vec.isZero_neg 𝕜 ((LinearSystem.solve_finite _ _ _ _).ok hx)).2
    (hf.zero hprepares rfl hzero ((Matrix.applyTranspose_size hg).trans hcols) hx)

theorem checked_two_div {h : ℝ} (hh : h ≠ 0) :
    Checked.div 2.0 (real h) = .ok (real ((2 : ℕ) / h)) := by
  have htwo : (2.0 : Exact) = real (2 : ℕ) := by norm_num
  have hsame : ¬Scalar.same (real h) 0.0 = true := by
    rw [ofScientific_eq, same_iff]
    norm_num
    exact hh
  rw [Checked.div, if_neg hsame, htwo, real_div hh]

/-- The second order correction of a velocity of zero is zero. -/
theorem correction_isZero [ExactZero 𝕜 K] {h : ℝ} (hh : h ≠ 0)
    (hdifference : a.geodesic.difference = real h) (hB : c.backend.Frames)
    (hp : c.problem.Steady part) (hf : Faithful c r) {M : FieldMatrix 𝕜 r.fu.size c.problem.size}
    (hJ : J.Reads M) (hanswered : c.problem.Answered r.u r.fu) (hc : Computes c r J A s v s')
    (hv : v.isZero = true) :
    (a.correction c J v).Ends s' (fun w _ => ∀ x ∈ w, x.isZero = true) (fun _ _ => True) := by
  obtain ⟨g, w, x, hprepares, -, hx, -⟩ := hc.solved
  have hleft : s'.work.model = w.model := ((LinearSystem.solve_model hB g).ends w).ok hx
  obtain ⟨hu, hfu, -, -⟩ := held_of_velocity hc.model hc.velocity
  have htwice := checked_two_div hh
  simp only [correction, ends_bind, ends_get, Run.ends_evaluate, hdifference, hu, hfu]
  refine ((c.problem.evaluate_answered _ _).and ((c.problem.evaluate_model _).ends _)).mono
    (fun ahead w₁ h₁ => ?_) (fun _ _ _ => trivial)
  obtain ⟨hahead, hw₁⟩ := h₁
  -- the residual is differentiated at the iterate itself
  have hstill : r.u + real h • v = r.u := Vec.add_of_isZero 𝕜 (Vec.isZero_smul 𝕜 h hv)
    (hahead.size_eq.trans hanswered.size_eq.symm)
  rw [hstill] at hahead
  obtain rfl := hp.answered_inj hahead hanswered
  split
  · intro x hx
    cases hx
  next hfinite =>
    simp only [ends_bind, ends_ofFault_ok htwice, Run.ends_onWork, ends_ofFault]
    refine ((hJ.apply_isZero hv _ _).and ((J.apply_keeps c.problem.evaluate_model v).ends _)).mono
      (fun slope w₂ h₂ => ?_) (fun _ _ _ => trivial)
    obtain ⟨hslope, hw₂⟩ := h₂
    refine ⟨fun b hb => ends_iff.2 ⟨fun y w₃ hy => ?_, fun _ _ _ => trivial⟩, fun _ _ => trivial⟩
    have hdifference := Vec.isZero_divideBy 𝕜 hh (Vec.isZero_sub_self 𝕜 (by simpa using hfinite))
    have hside := Vec.isZero_smul 𝕜 ((2 : ℕ) / h) (Vec.isZero_sub 𝕜 hdifference hslope)
    have hzero := hf.zero hprepares (hw₂.trans (hw₁.trans hleft))
      (hJ.applyTranspose_isZero hside hb) ((Matrix.applyTranspose_size hb).trans hJ.cols) hy
    rintro z hz
    cases hz
    exact (Vec.isZero_neg 𝕜 ((LinearSystem.solve_finite _ _ _ _).ok hy)).2 hzero

/-- The second order correction differentiates along a part of the step that is not zero. -/
def Geodesic.Differs (g : Geodesic Exact) : Prop :=
  g.active = true → ∃ h : ℝ, h ≠ 0 ∧ g.difference = real h

/-- The step for a velocity of zero is zero. -/
theorem correctedStep_isZero [ExactZero 𝕜 K] (hgeodesic : Geodesic.Differs a.geodesic)
    (hB : c.backend.Frames) (hp : c.problem.Steady part) (hf : Faithful c r)
    {M : FieldMatrix 𝕜 r.fu.size c.problem.size} (hJ : J.Reads M)
    (hanswered : c.problem.Answered r.u r.fu) (hc : Computes c r J A s v s')
    (hv : v.isZero = true) :
    (a.correctedStep c J v).Ends s' (fun du _ => ∀ x ∈ du, x.isZero = true) (fun _ _ => True) := by
  have htwo : (2.0 : Exact) = real (2 : ℕ) := by norm_num
  unfold correctedStep
  split
  · rintro x hx
    cases hx
    exact hv
  next hactive =>
    obtain ⟨h, hh, hdifference⟩ := hgeodesic (by simpa using hactive)
    refine (correction_isZero hh hdifference hB hp hf hJ hanswered hc hv).bind (fun w t hw => ?_)
      (fun _ _ h => h)
    cases w with
    | none => exact fun x hx => by cases hx
    | some w =>
      dsimp only
      split
      · rintro x hx
        cases hx
        rw [htwo]
        exact Vec.isZero_add 𝕜 hv (Vec.isZero_divideBy 𝕜 (by norm_num) (hw w rfl))
      · exact fun x hx => by cases hx

/-- A step that is taken with a velocity of zero stays where it is. -/
theorem Follows.stays [ExactZero 𝕜 K] (hgeodesic : Geodesic.Differs a.geodesic)
    (hB : c.backend.Frames) (hp : c.problem.Steady part) (hf : Faithful c r)
    {M : FieldMatrix 𝕜 r.fu.size c.problem.size} (hJ : J.Reads M)
    (hanswered : c.problem.Answered r.u r.fu) (hc : Computes c r J A s v s')
    (hv : v.isZero = true) (h : Follows a c r J v s' true t) : t.u = r.u ∧ t.fu = r.fu := by
  cases h with
  | taken du hcorrected hmoved hu hlast =>
    have hzero := (correctedStep_isZero hgeodesic hB hp hf hJ hanswered hc hv).ok hcorrected du rfl
    have hstill : r.u + du = r.u :=
      Vec.add_of_isZero 𝕜 hzero (hmoved.size_eq.trans hanswered.size_eq.symm)
    rw [hstill] at hmoved hu
    exact ⟨hu, hp.answered_inj hmoved hanswered⟩

/-- A step keeps what holds between the steps. -/
theorem Poised.next [ExactZero 𝕜 K] (hgeodesic : Geodesic.Differs a.geodesic)
    (hB : c.backend.Frames) (hp : c.problem.Steady part) (hf : Faithful c r) (hr : Poised c r)
    {M : FieldMatrix 𝕜 r.fu.size c.problem.size} (hJ : J.Reads M) (hc : Computes c r J A s v s')
    (h : Stepped a c r J A s taken t) (hfollows : Follows a c r J v s' taken t) :
    Poised c (Run.recorded c r.u t) := by
  have hat := hr.isJacobian hp h.modelled
  obtain ⟨gradient, velocity, hext⟩ := h.ext
  have hsettings : (Run.recorded c r.u t).ext.jacobians = r.ext.jacobians := by
    rw [Run.recorded_ext, hext, h.modelled.ext]
  have hiterate (hu : t.u = r.u) (hfu : t.fu = r.fu) :
      (Run.recorded c r.u t).u = r.u ∧ (Run.recorded c r.u t).fu = r.fu :=
    ⟨(Run.recorded_u ..).trans hu, (Run.recorded_fu ..).trans hfu⟩
  refine ⟨hr.toCurrent.next hB hp h, fun w hw => ?_, fun w hw hzero => ?_⟩
  · rw [Run.recorded_ext] at hw
    cases hfollows with
    | taken du _ _ _ hlast =>
      obtain rfl := Option.some.inj (hlast.symm.trans hw)
      exact hc.finite 𝕜
    | refused hlast => exact hr.finite w (hlast.symm.trans hw)
  · rw [Run.recorded_ext] at hw
    cases hfollows with
    | taken du hcorrected hmoved hmoves hlast =>
      obtain rfl := Option.some.inj (hlast.symm.trans hw)
      obtain ⟨hu, hfu⟩ := Follows.stays hgeodesic hB hp hf hJ hr.answered hc hzero
        (.taken du hcorrected hmoved hmoves hlast)
      obtain ⟨hu, hfu⟩ := hiterate hu hfu
      exact (hc.atRest 𝕜 hf hat hzero).congr hu hfu hsettings
    | refused hlast =>
      obtain ⟨hu, hfu⟩ := hiterate (h.stays rfl).1 (h.stays rfl).2
      exact (hr.rest w (hlast.symm.trans hw) hzero).congr hu hfu hsettings

end Steps

/-! ## Turns -/

section Turns

variable {𝕜 K : Type} [RCLike 𝕜] [Entry Exact K] [ExactEntry 𝕜 K] [ExactParts 𝕜 K] {v : Vec K}
  {last : Option (Vec K)}

/-- The cosine between a velocity and the last one is a number between minus one and one, whose
difference from one has every power of the uphill rule. -/
def IsTurn (v : Vec K) (last : Option (Vec K)) : Prop :=
  ∃ β : ℝ, -1 ≤ β ∧ β ≤ 1 ∧ cosine v last = real β ∧
    ∀ b : ℝ, 0 < b → Checked.pow (1.0 - cosine v last) (real b) = .ok (real ((1 - β) ^ b))

/-- So it is, and where the cosine is a quotient, the divisor is not zero. -/
structure HasTurn (v : Vec K) (last : Option (Vec K)) : Prop where
  divisor : ∀ w, last = some w → Scalar.same v.norm 0.0 = false →
    ∃ p : ℝ, p ≠ 0 ∧ v.norm * w.norm = real p
  turn : IsTurn v last

variable (𝕜) in
include 𝕜 in
theorem isTurn_of_ne (h : cosine v last ≠ undefined) : IsTurn v last := by
  have hone : (1.0 : Exact) = real 1 := by norm_num
  obtain ⟨β, hβ, hturn⟩ := (cosine_cases 𝕜 v last).resolve_left h
  obtain ⟨hlower, hupper⟩ := abs_le.1 hβ
  refine ⟨β, hlower, hupper, hturn, fun b hb => ?_⟩
  rw [hturn, hone, real_sub]
  exact pow_real hβ hb

variable (𝕜) in
include 𝕜 in
/-- Two finite velocities have a cosine if the last one is zero only where the new one is. -/
theorem hasTurn_of_isZero (hv : v.isFinite = true) (hlast : ∀ w, last = some w → w.isFinite = true)
    (hzero : ∀ w, last = some w → w.isZero = true → v.isZero = true) : HasTurn v last := by
  have hnaught : (0.0 : Exact) = real 0 := by norm_num
  obtain ⟨xs, rfl⟩ := Vec.exists_numbers (𝕜 := 𝕜) hv
  -- the lengths that a quotient is divided by
  have hlengths : ∀ w, last = some w → Scalar.same (Vec.numbers xs : Vec K).norm 0.0 = false →
      ∃ ys : List 𝕜, w = Vec.numbers ys ∧ euclidean xs * euclidean ys ≠ 0 := by
    intro w hw hsame
    have hxs : euclidean xs ≠ 0 := by
      intro hxs
      rw [Vec.norm_numbers, hxs, hnaught, ← Bool.not_eq_true, same_iff] at hsame
      exact hsame rfl
    obtain ⟨ys, rfl⟩ := Vec.exists_numbers (𝕜 := 𝕜) (hlast w hw)
    refine ⟨ys, rfl, mul_ne_zero hxs fun hys => hxs ?_⟩
    exact Vec.euclidean_of_isZero (hzero _ hw (Vec.isZero_of_euclidean 𝕜 hys))
  have hdefined : cosine (Vec.numbers xs : Vec K) last ≠ undefined := by
    cases last with
    | none =>
      intro h
      cases hnaught.symm.trans h
    | some w =>
      unfold cosine
      cases hsame : Scalar.same (Vec.numbers xs : Vec K).norm 0.0 with
      | true =>
        intro h
        cases hnaught.symm.trans h
      | false =>
        obtain ⟨ys, rfl, hne⟩ := hlengths w rfl hsame
        simp [Vec.dot_numbers, Vec.norm_numbers, ExactParts.re, real_div hne]
  refine ⟨fun w hw hsame => ?_, isTurn_of_ne 𝕜 hdefined⟩
  obtain ⟨ys, rfl, hne⟩ := hlengths w hw hsame
  exact ⟨_, hne, by rw [Vec.norm_numbers, Vec.norm_numbers, real_mul]⟩

variable (𝕜) in
include 𝕜 in
theorem norm_of_isZero (hv : v.isZero = true) : v.norm = real 0 := by
  have hreads : v.Reads (0 : Fin v.size → 𝕜) := Vec.reads_of_isZero hv rfl
  have hzeros : euclidean (List.ofFn (0 : Fin v.size → 𝕜)) = 0 :=
    Vec.euclidean_of_isZero (K := K) (Vec.Reads.isZero rfl)
  exact (congrArg Vec.norm hreads).trans ((Vec.norm_numbers _).trans (congrArg real hzeros))

variable (𝕜) in
include 𝕜 in
/-- A velocity of zero does not turn. -/
theorem cosine_of_isZero (hv : v.isZero = true) (last : Option (Vec K)) :
    cosine v last = real 0 := by
  have hnaught : (0.0 : Exact) = real 0 := by norm_num
  cases last with
  | none => exact hnaught
  | some w => exact (if_pos (by rw [norm_of_isZero 𝕜 hv, hnaught, same_iff])).trans hnaught

variable (𝕜) in
include 𝕜 in
/-- Between a velocity that is not zero and a last one of zero there is no cosine. -/
theorem cosine_undefined {w : Vec K} (hv : v.isFinite = true) (hne : v.isZero = false)
    (hw : w.isZero = true) :
    Scalar.same v.norm 0.0 = false ∧ v.norm * w.norm = real 0 ∧
      cosine v (some w) = undefined := by
  have hnaught : (0.0 : Exact) = real 0 := by norm_num
  obtain ⟨xs, rfl⟩ := Vec.exists_numbers (𝕜 := 𝕜) hv
  have hreads : w.Reads (0 : Fin w.size → 𝕜) := Vec.reads_of_isZero hw rfl
  obtain ⟨ys, rfl⟩ : ∃ ys : List 𝕜, w = Vec.numbers ys := ⟨_, hreads⟩
  have hys : euclidean ys = 0 := Vec.euclidean_of_isZero hw
  have hsame : Scalar.same (Vec.numbers xs : Vec K).norm 0.0 = false := by
    rw [← Bool.not_eq_true, Vec.norm_numbers, hnaught, same_iff]
    intro h
    exact Bool.false_ne_true (hne.symm.trans (Vec.isZero_of_euclidean 𝕜 (Exact.real.inj h)))
  have hproduct : (Vec.numbers xs : Vec K).norm * (Vec.numbers ys : Vec K).norm = real 0 := by
    rw [norm_of_isZero 𝕜 hw, Vec.norm_numbers, real_mul, mul_zero]
  have hdot : (List.zipWith (· * ·) xs ys).sum = 0 := by
    have hle := norm_sum_zipWith_le xs ys
    rw [hys, mul_zero] at hle
    exact norm_le_zero_iff.1 hle
  refine ⟨hsame, hproduct, ?_⟩
  unfold cosine
  simp only [hsame, Bool.false_eq_true, if_false]
  rw [hproduct, Vec.dot_numbers, hdot, ExactParts.re, map_zero]
  exact (if_pos rfl).trans (by simp [infinityOf])

end Turns

/-! ## Elimination -/

section Elimination

variable {σ 𝕜 K : Type} [RCLike 𝕜] [Entry Exact K] [ExactEntry 𝕜 K] [ExactParts 𝕜 K]
  {a : LevenbergMarquardt Exact} {c : Setup σ Exact K} {r s : Run σ Exact K (State Exact K)}
  {floor : ℝ} {J A : Matrix Exact K} {w : Workspace σ Exact K}

/-- The factors that elimination makes in a step solve their system for every right-hand side. -/
theorem Prepares.solves (hB : c.backend.Eliminates 𝕜) (hp : c.problem.ZeroFilled)
    (hr : Between 𝕜 a c floor r) (hdirect : IsDirect r) (h : Prepares c r J A s w) :
    ∃ (M : FieldMatrix 𝕜 r.fu.size c.problem.size)
      (N : FieldMatrix 𝕜 c.problem.size c.problem.size), J.Reads M ∧
      (∃ m, m.IsDirect ∧ w.system.method = some m) ∧ ∀ (b : Vec K) g, b.Reads g →
        (LinearSystem.solve c.backend c.problem.evaluate b).Ends w
          (fun x _ => ∃ y, x.Reads y ∧ N *ᵥ y = g) (fun _ _ => False) := by
  obtain ⟨M, d, x, -, -, hM, -, -, -, hN⟩ := hr.damped hp h.model
  have hsystem : s.work.system = r.work.system := ((model_system c).ends r).ok h.model
  have hmethod : (s.work.system.method.getD (SolveMethod.forMatrix
      (A.addDiagonal (s.ext.damping • s.ext.scaling)))).IsDirect := by
    rw [hsystem]
    cases hm : r.work.system.method with
    | none => exact hN.forMatrix_isDirect
    | some m => exact hdirect m hm
  exact ⟨M, _, hM, ⟨_, hmethod, ((LinearSystem.factorize_ready _ _ _).ok h.factorized).method⟩,
    fun b g hb => (LinearSystem.eliminates hB hN hb c.problem.evaluate hmethod).ok h.factorized⟩

/-- Elimination tells zero from what is not zero, where the residual is finite. -/
theorem faithful_of_direct (hB : c.backend.Eliminates 𝕜) (hp : c.problem.ZeroFilled)
    (hr : Between 𝕜 a c floor r) (hdirect : IsDirect r) (hfinite : r.fu.isFinite = true) :
    Faithful c r := by
  refine ⟨fun {J A s w w' g x} h hg hx hzero => ?_, fun {J A s w v v' b x} h hv hb hsize hx => ?_⟩
  · obtain ⟨M, N, hM, -, hsolves⟩ := h.solves hB hp hr hdirect
    obtain ⟨f, hf⟩ := Vec.reads_of_isFinite (𝕜 := 𝕜) hfinite rfl
    obtain ⟨g', hg', hreads⟩ := hM.applyTranspose (v := r.fu) rfl
    cases hg'.symm.trans hg
    obtain ⟨y, hy, hsolution⟩ := (hsolves g _ (hreads f hf)).ok hx
    have hgradient := hreads f hf
    rw [← hsolution, hy.inj (Vec.reads_of_isZero hzero hy.size), Matrix.mulVec_zero] at hgradient
    exact hgradient.isZero
  · obtain ⟨M, N, -, ⟨m, hm, hmethod⟩, hsolves⟩ := h.solves hB hp hr hdirect
    -- the solve answers what it does where the factors were made
    have hanswer := LinearSystem.solve_fst_eq (B := c.backend) (F := c.problem.evaluate) hm b
      hmethod ((congrArg (·.2.2.method) hv).trans hmethod) (congrArg (·.2.2.matrix) hv)
      (congrArg (·.2.2.factors) hv)
    obtain ⟨x', w', hx', y, hy, hsolution⟩ :=
      (hsolves b 0 (Vec.reads_of_isZero hb hsize)).exists_ok
    rw [hx, hx'] at hanswer
    obtain rfl : x = x' := Except.ok.inj hanswer
    have hsurjective : Function.Surjective N.mulVec := by
      intro g
      obtain ⟨-, -, -, z, -, hz⟩ := (hsolves (Vec.numbers (List.ofFn g)) g rfl).exists_ok
      exact ⟨z, hz⟩
    have hinjective := Matrix.mulVec_injective_of_isUnit
      (Matrix.mulVec_surjective_iff_isUnit.1 hsurjective)
    obtain rfl : y = 0 := hinjective (hsolution.trans (Matrix.mulVec_zero N).symm)
    exact hy.isZero

omit [RCLike 𝕜] [ExactEntry 𝕜 K] [ExactParts 𝕜 K] in
/-- After a step the linear system has the method that it had or the one for the matrix. -/
theorem step_method (hB : c.backend.Frames) (r : Run σ Exact K (State Exact K)) :
    (a.step c).Ends r
      (fun _ t => ∃ J A s, (model c).eval r = (.ok (J, A), s) ∧
        t.work.system.method = some (r.work.system.method.getD
          (SolveMethod.forMatrix (A.addDiagonal (s.ext.damping • s.ext.scaling)))))
      (fun _ _ => True) := by
  rw [step_eq, ends_bind]
  refine ends_iff.2 ⟨?_, fun _ _ _ => trivial⟩
  rintro ⟨J, A⟩ s hmodel
  have hsystem : s.work.system = r.work.system := ((model_system c).ends r).ok hmodel
  have hmethod := velocity_method hB J A s
  rw [hsystem] at hmethod
  have hverdict : (a.verdict c J A).Ends s (fun _ t => t.work.system.method =
      some (r.work.system.method.getD
        (SolveMethod.forMatrix (A.addDiagonal (s.ext.damping • s.ext.scaling)))))
      (fun _ _ => True) := by
    refine hmethod.bind (fun v s₁ h₁ => ?_) (fun _ _ _ => trivial)
    have hcorrected : Keeps (fun r : Run σ Exact K (State Exact K) => r.work.model)
        (a.correctedStep c J v) :=
      correctedStep_ofWork c.problem.evaluate_model (LinearSystem.solve_model hB) J v
    refine (hcorrected.ends s₁).bind (fun du s₂ h₂ => ?_) (fun _ _ _ => trivial)
    have hkept : s₂.work.system.method = s₁.work.system.method := congrArg (·.2.2.method) h₂
    cases du with
    | none => exact hkept.trans h₁
    | some du =>
      simp only [attempt, ends_bind, ends_get, Run.ends_evaluate, ends_ofFault]
      refine ((c.problem.evaluate_model _).ends _).mono (fun fu w hw => ?_) (fun _ _ _ => trivial)
      have hleft : w.system.method = s₂.work.system.method := congrArg (·.2.2.method) hw
      refine ⟨fun taken _ => ?_, fun _ _ => trivial⟩
      cases taken <;> exact hleft.trans (hkept.trans h₁)
  refine hverdict.bind (fun taken t ht => ?_) (fun _ _ _ => trivial)
  refine (settle_adapted taken t).mono (fun _ t' h => ?_) (fun _ _ h => h)
  exact ⟨J, A, s, hmodel, by rw [h.2.2.1, ht]⟩

end Elimination

/-! ## Along a run -/

section Runs

variable {σ τ : Type} (𝕜 : Type) {K : Type} [RCLike 𝕜] [Entry Exact K] [ExactEntry 𝕜 K]
  [ExactParts 𝕜 K] {a : LevenbergMarquardt Exact} {c : Setup σ Exact K} {part : σ → τ}
  {r₀ r s t : Run σ Exact K (State Exact K)} {damping increase decrease floor : ℝ} {world : σ}
  (hreal : a.HasReals damping increase decrease floor) (ha : a.refusal? = none)
  (hB : c.backend.Frames) (hp : c.problem.ZeroFilled)
  (hstart : Run.start a.strategy c world = .ok r₀)

/-- The step from `r` computes the velocity `v`. -/
def IsVelocity (c : Setup σ Exact K) (r : Run σ Exact K (State Exact K)) (v : Vec K) : Prop :=
  ∃ J A s s', Computes c r J A s v s'

include 𝕜 hreal ha hB hp hstart

/-- Elimination tells zero from what is not zero in every step of a run that starts with a finite
residual. -/
theorem faithful_of_leads (heliminates : c.backend.Eliminates 𝕜) (hdirect : IsDirect r₀)
    (hfinite : r₀.fu.isFinite = true) (h : Run.Leads a.strategy c r₀ r) (hr : r.error = none) :
    Faithful c r := by
  have herror := Run.start_error hstart
  have hkept : Run.Leads a.strategy c r₀ r ∧ IsDirect r ∧ r.fu.isFinite = true := by
    refine h.going (I := fun s => Run.Leads a.strategy c r₀ s ∧ IsDirect s ∧ s.fu.isFinite = true)
      (a.proceeds c) herror hr ⟨.refl, hdirect, hfinite⟩ (fun s hs => ⟨hs.1.headline, hs.2⟩)
      (fun s t hs active hstep => ?_)
    obtain ⟨hleads, hdirect, -⟩ := hs
    have hnone := hleads.error_eq_none (a.proceeds c) herror (Run.stopped_of_isActive active)
    obtain ⟨hbetween, -⟩ := between_of_leads (𝕜 := 𝕜) hreal ha hB hp hstart hleads hnone
    obtain ⟨b, htested⟩ := (a.proceeds c s).ok hstep
    obtain ⟨J, A, s', hmodel, hmethod⟩ := (step_method hB s).ok hstep
    obtain ⟨_, _, _, -, -, -, -, -, -, hN⟩ := hbetween.damped hp hmodel
    refine ⟨hleads.step active (Run.step_of_ok hstep), ?_, ?_⟩
    · unfold IsDirect
      rw [Run.recorded_work, hmethod]
      rintro m hm
      obtain rfl := Option.some.inj (Option.mem_def.1 hm)
      cases hm : s.work.system.method with
      | none => exact hN.forMatrix_isDirect
      | some m => exact hdirect m hm
    · rw [Run.recorded_fu]
      exact htested.isFinite.2
  obtain ⟨hbetween, -⟩ := between_of_leads (𝕜 := 𝕜) hreal ha hB hp hstart h hr
  exact faithful_of_direct heliminates hp hbetween hkept.2.1 hkept.2.2

variable [ExactZero 𝕜 K] (hgeodesic : Geodesic.Differs a.geodesic) (hsteady : c.problem.Steady part)
  (hfaithful : ∀ r, Run.Leads a.strategy c r₀ r → r.error = none → Faithful c r)

include hgeodesic hsteady hfaithful

/-- What holds between the steps holds wherever a run gets without a failure. -/
theorem poised_of_leads (h : Run.Leads a.strategy c r₀ r) (hr : r.error = none) : Poised c r := by
  have herror := Run.start_error hstart
  have h₀ : Poised c r₀ := by
    have hnone : ∀ v, r₀.ext.velocity ≠ some v := fun v hv => by
      rw [(start_ok (Run.start_prepared hstart)).velocity] at hv
      cases hv
    exact ⟨current_of_start hstart, fun v hv => (hnone v hv).elim, fun v hv => (hnone v hv).elim⟩
  refine (h.going (I := fun s => Run.Leads a.strategy c r₀ s ∧ Poised c s) (a.proceeds c) herror hr
    ⟨.refl, h₀⟩ (fun s hs => ⟨hs.1.headline, ?_⟩) (fun s t hs active hstep => ?_)).2
  · exact ⟨hs.2.toCurrent.headed, hs.2.finite, hs.2.rest⟩
  · obtain ⟨hleads, hs⟩ := hs
    have hnone := hleads.error_eq_none (a.proceeds c) herror (Run.stopped_of_isActive active)
    obtain ⟨hbetween, -⟩ := between_of_leads (𝕜 := 𝕜) hreal ha hB hp hstart hleads hnone
    obtain ⟨J, A, s₁, v, s', taken, hcomputes, hstepped, hfollows⟩ := (step_follows s).ok hstep
    obtain ⟨M, -, hJ, -⟩ := hbetween.modelled hp hstepped.modelled
    exact ⟨hleads.step active (Run.step_of_ok hstep), hs.next hgeodesic hB hsteady
      (hfaithful s hleads hnone) hJ hcomputes hstepped hfollows⟩

/-- Where the last velocity that was taken is zero, so is the next one. -/
theorem isZero_of_rest (h : Run.Leads a.strategy c r₀ r) (hr : r.error = none) {v w : Vec K}
    (hw : r.ext.velocity = some w) (hzero : w.isZero = true) (hv : IsVelocity c r v) :
    v.isZero = true := by
  obtain ⟨J, A, s, s', hcomputes⟩ := hv
  have hpoised : Poised c r :=
    poised_of_leads 𝕜 hreal ha hB hp hstart hgeodesic hsteady hfaithful h hr
  obtain ⟨hbetween, -⟩ := between_of_leads (𝕜 := 𝕜) hreal ha hB hp hstart h hr
  obtain ⟨M, -, hJ, -⟩ := hbetween.modelled hp hcomputes.modelled
  exact hcomputes.isZero 𝕜 (hfaithful r h hr) (hpoised.isJacobian hsteady hcomputes.modelled)
    hJ.cols (hpoised.rest w hw hzero)

/-- A last velocity of zero stays, or is followed by another one. -/
theorem rest_of_leads (hs : Run.Leads a.strategy c r₀ s) (hnone : s.error = none) {w : Vec K}
    (hw : s.ext.velocity = some w) (hzero : w.isZero = true) (h : Run.Leads a.strategy c s t)
    (ht : t.error = none) : ∃ w, t.ext.velocity = some w ∧ w.isZero = true := by
  refine (h.going (I := fun t => Run.Leads a.strategy c r₀ t ∧ ∃ w, t.ext.velocity = some w ∧
    w.isZero = true) (a.proceeds c) hnone ht ⟨hs, w, hw, hzero⟩
    (fun t ht => ⟨ht.1.headline, ht.2⟩) (fun r t hr active hstep => ?_)).2
  obtain ⟨hleads, w, hw, hzero⟩ := hr
  have hr := hleads.error_eq_none (a.proceeds c) (Run.start_error hstart)
    (Run.stopped_of_isActive active)
  obtain ⟨J, A, s₁, v, s', taken, hcomputes, -, hfollows⟩ := (step_follows r).ok hstep
  have hv : v.isZero = true := isZero_of_rest 𝕜 hreal ha hB hp hstart hgeodesic hsteady hfaithful
    hleads hr hw hzero ⟨J, A, s₁, s', hcomputes⟩
  refine ⟨hleads.step active (Run.step_of_ok hstep), ?_⟩
  rw [Run.recorded_ext]
  cases hfollows with
  | taken du _ _ _ hlast => exact ⟨v, hlast, hv⟩
  | refused hlast => exact ⟨w, hlast.trans hw, hzero⟩

end Runs

end LevenbergMarquardt

end RootFinding
