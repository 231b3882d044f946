import RootFinding.Proofs.Fits
import RootFinding.Proofs.JacobianCalls

/-!
# Safe actions

An action is safe when it ends in an answer or a failure of a solve, or in one of the faults that
are allowed. Failures are part of a solve; a fault leaves it.

* `Action.Safe I Q B a`: the action keeps the invariant `I`, its answers are as `Q` says and its
  faults as `B` says.
* `Problem.Answers P m`: the residual and the Jacobian of a problem keep to `m` equations and to
  entries of the kind `P`.
* `Problem.evaluate_fits`, `Difference.along_safe`, `Matrix.apply_safe`: no fault at all where the
  sizes fit.
* `Problem.jacobianAt_safe`: a Jacobian that is answered has the right sizes, is finite, and is
  free only where products are all that is asked for.
-/

namespace RootFinding

namespace Action

variable {R K S T α β : Type} {I : S → Prop} {Q Q' : α → Prop} {B B' : Fault → Prop}
  {a : Action (Thrown R K) S α}

/-- An action that keeps an invariant, answers as `Q` says, and ends in no other faults than those
of `B`. -/
def Safe (I : S → Prop) (Q : α → Prop) (B : Fault → Prop) (a : Action (Thrown R K) S α) : Prop :=
  ∀ s, I s → a.Ends s (fun x t => I t ∧ Q x) (fun e t => I t ∧ ∀ f, e = .fault f → B f)

/-- No fault. -/
def NoFault (_ : Fault) : Prop := False

theorem Safe.mono (h : Safe I Q B a) (hQ : ∀ x, Q x → Q' x) (hB : ∀ f, B f → B' f) :
    Safe I Q' B' a := fun s hs =>
  (h s hs).mono (fun x _ hx => ⟨hx.1, hQ x hx.2⟩)
    (fun _ _ he => ⟨he.1, fun f hf => hB f (he.2 f hf)⟩)

/-- An action without faults is safe for any faults. -/
theorem Safe.of_noFault (h : Safe I Q NoFault a) : Safe I Q B a :=
  h.mono (fun _ hx => hx) fun _ => False.elim

theorem safe_pure {x : α} (hx : Q x) : Safe I Q B (pure x : Action (Thrown R K) S α) :=
  fun _ hs => ⟨hs, hx⟩

theorem safe_fail {f : Failure R K} : Safe I Q B (fail f : Action (Thrown R K) S α) :=
  fun _ hs => ⟨hs, fun _ h => nomatch h⟩

theorem safe_throw {f : Fault} (hf : B f) :
    Safe I Q B (throw (.fault f) : Action (Thrown R K) S α) :=
  fun _ hs => ⟨hs, fun g hg => by cases hg; exact hf⟩

theorem safe_modify {f : S → S} (hf : ∀ s, I s → I (f s)) :
    Safe I (fun _ => True) B (modify f : Action (Thrown R K) S PUnit) :=
  fun s hs => ⟨hf s hs, trivial⟩

theorem safe_get : Safe I I B (get : Action (Thrown R K) S S) := fun _ hs => ⟨hs, hs⟩

theorem Safe.bind {f : α → Action (Thrown R K) S β} {Q' : β → Prop} (h : Safe I Q B a)
    (hf : ∀ x, Q x → Safe I Q' B (f x)) : Safe I Q' B (a >>= f) := fun s hs =>
  (h s hs).bind (fun x t hx => hf x hx.2 t hx.1) (fun _ _ he => he)

/-- Past an action that is only taken under a condition. -/
theorem Safe.guard {p : Prop} [Decidable p] {a : Action (Thrown R K) S PUnit}
    {b : Action (Thrown R K) S β} {Q : β → Prop} (ha : p → Safe I (fun _ => True) B a)
    (hb : Safe I Q B b) : Safe I Q B (if p then a >>= fun _ => b else b) := by
  split
  next hp => exact (ha hp).bind fun _ _ => hb
  next => exact hb

theorem Safe.attempt (h : Safe I Q B a) :
    Safe I (fun r => ∀ x, r = .ok x → Q x) B'
      (attempt a : Action (Thrown R K) S (Except (Thrown R K) α)) := fun s hs =>
  ends_attempt.2 ((h s hs).mono (fun _ _ hx => ⟨hx.1, fun _ h => by cases h; exact hx.2⟩)
    (fun _ _ he => ⟨he.1, fun _ h => nomatch h⟩))

/-- Errors that become failures are no faults. -/
theorem Safe.mapError {g : Thrown R K → Thrown R K} (h : Safe I Q B a)
    (hg : ∀ e f, g e = .fault f → B' f) : Safe I Q B' (a.mapError g) := fun s hs =>
  ends_mapError.2 ((h s hs).mono (fun _ _ hx => hx) (fun e _ he => ⟨he.1, hg e⟩))

/-- An action that leaves a part of the state alone keeps the value of that part. -/
theorem Keeps.safe {π : S → T} {t : T} (h : Keeps π a)
    (ha : ∀ s, π s = t → a.Ends s (fun x _ => Q x) (fun e _ => ∀ f, e = .fault f → B f)) :
    Safe (fun s => π s = t) Q B a := fun s hs =>
  ((h.ends s).and (ha s hs)).mono (fun _ _ hx => ⟨hx.1.trans hs, hx.2⟩)
    (fun _ _ he => ⟨he.1.trans hs, he.2⟩)

end Action

open Action

/-! ## Evaluations -/

section Problems

variable {σ R K : Type} [Scalar R] [Entry R K]

/-- The residual answers `m` entries for any vector of unknowns, and the residual and the Jacobian
answer entries of the kind `P` where they are asked with such. -/
structure Problem.Answers (p : Problem σ R K) (P : K → Prop) (m : Nat) : Prop where
  returning (f : Callable σ R K (Tensor K) (Tensor K)) : p.residual = .returning f →
    ∀ v w t w', v.size = p.size → f ⟨p.guess.shape, v⟩ w = (.ok t, w') → t.entries.size = m ∧
      ((∀ a ∈ v.toList, P a) → ∀ a ∈ t.entries.toList, P a)
  filling (f : Callable σ R K (Tensor K × Tensor K) (Tensor K)) : p.residual = .filling f →
    ∀ v w t w', v.size = p.size → f (p.emptyResidual v, ⟨p.guess.shape, v⟩) w = (.ok t, w') →
      t.entries.size = m ∧ ((∀ a ∈ v.toList, P a) → ∀ a ∈ t.entries.toList, P a)
  jacobian (f : Callable σ R K (Tensor K) (JacobianValue K)) : p.jacobian = some f →
    ∀ v w J w', v.size = p.size → f ⟨p.guess.shape, v⟩ w = (.ok J, w') → (∀ a ∈ v.toList, P a) →
      (J.toMatrix : Matrix R K).Fits P (J.toMatrix : Matrix R K).height
        (J.toMatrix : Matrix R K).cols

/-- A function of vectors as an action without faults, from `n` entries to `m`. -/
structure Difference.Field.Fits {S : Type} (I : S → Prop) (P : K → Prop) (n m : Nat)
    (F : Difference.Field R K S) : Prop where
  size {v : Vec K} : v.size = n → Safe I (fun f => f.size = m) NoFault (F v)
  kind {v : Vec K} : v.Fits P n → Safe I (Vec.Fits P m) NoFault (F v)

omit [Scalar R] [Entry R K] in
theorem Problem.restructure_ok {p : Problem σ R K} {v : Vec K}
    (hp : p.size = Tensor.sizeOf p.guess.shape) (hv : v.size = p.size) :
    p.restructure v = .ok ⟨p.guess.shape, v⟩ := if_pos (hv.trans hp)

omit [Entry R K] in
theorem Thrown.ofResidual_ne_fault {e : Thrown R K} {f : Fault} : e.ofResidual ≠ .fault f := by
  cases e <;> exact fun h => nomatch h

/-- What an evaluation ends with, when the sizes of the unknowns fit. -/
theorem Problem.evaluate_ends {p : Problem σ R K} {P : K → Prop} {m : Nat} (hm : p.Answers P m)
    (hp : p.size = Tensor.sizeOf p.guess.shape) {v : Vec K} (hv : v.size = p.size)
    (w : Workspace σ R K) :
    (p.evaluate v).Ends w
      (fun f _ => f.size = m ∧ ((∀ a ∈ v.toList, P a) → ∀ a ∈ f.toList, P a))
      (fun e _ => ∀ f, e ≠ .fault f) := by
  simp only [evaluate, restructure_ok hp hv, ends_bind, ends_ofFault, Except.ok.injEq,
    ends_modify, ends_mapError]
  refine ⟨?_, by simp⟩
  intro x hx
  subst hx
  cases hresidual : p.residual with
  | returning f =>
    simp only [Workspace.call, ends_ofFun]
    refine ⟨fun t w' h => ?_, fun e w' _ f => Thrown.ofResidual_ne_fault⟩
    exact hm.returning f hresidual v _ t _ hv (Prod.ext (Prod.mk.inj h).1 rfl)
  | filling f =>
    simp only [Workspace.call, ends_ofFun]
    refine ⟨fun t w' h => ?_, fun e w' _ f => Thrown.ofResidual_ne_fault⟩
    exact hm.filling f hresidual v _ t _ hv (Prod.ext (Prod.mk.inj h).1 rfl)

theorem Problem.evaluate_fits {p : Problem σ R K} {P : K → Prop} {m : Nat} (hm : p.Answers P m)
    (hp : p.size = Tensor.sizeOf p.guess.shape) (k : Option (Matrix R K) × LinearSystem R K) :
    Difference.Field.Fits (fun w => w.machinery = k) P p.size m p.evaluate where
  size hv := (p.evaluate_keeps _).safe fun w _ =>
    (evaluate_ends hm hp hv w).mono (fun _ _ h => h.1) (fun _ _ h f hf => h f hf)
  kind hv := (p.evaluate_keeps _).safe fun w _ =>
    (evaluate_ends hm hp hv.size w).mono (fun _ _ h => ⟨h.1, h.2 hv.all⟩) (fun _ _ h f hf => h f hf)

end Problems

/-! ## Products -/

section Products

variable {R K S : Type} [Scalar R] [Entry R K] {P : K → Prop} {I : S → Prop} {n m : Nat}

open Difference in
/-- The derivative along a vector has an entry for each entry of the function. -/
theorem Difference.along_safe (hP : Entry.Closed P) {F : Field R K S} (hF : F.Fits I P n m)
    (s : Scheme) {x : Vec R} (hx : x.size = n) {f0 v : Vec K} (hf0 : f0.Fits P m)
    (hv : v.Fits P n) : Safe I (Vec.Fits P m) NoFault (along F s x f0 v) := by
  have hpoint : (Vec.ofReals x : Vec K).Fits P n := Vec.fits_ofReals hP hx
  unfold along
  split
  · rw [hf0.size]
    exact safe_pure (Vec.fits_zeros hP)
  · cases s with
    | forward =>
      apply (hF.kind (hpoint.add hP (hv.smul hP _))).bind
      intro f hf
      rw [Vec.align_of_size (hf.size.trans hf0.size.symm)]
      exact safe_pure ((hf.zipWith hf0 fun _ _ => hP.sub).divideBy hP _)
    | central =>
      apply (hF.kind (hpoint.sub hP (hv.smul hP _))).bind
      intro back hback
      apply (hF.kind (hpoint.add hP (hv.smul hP _))).bind
      intro front hfront
      rw [Vec.align_of_size (hfront.size.trans hback.size.symm)]
      exact safe_pure ((hfront.zipWith hback fun _ _ => hP.sub).divideBy hP _)
    | complexStep =>
      -- the point has imaginary parts, so only the sizes are known of the residual there
      have haside : ∀ a : K, (Vec.ofReals x + Vec.scale a v : Vec K).size = n := fun a =>
        ((hpoint.mono fun _ _ => trivial).add Entry.closed_true
          ((hv.mono fun _ _ => trivial).scale Entry.closed_true trivial)).size
      refine (hF.size (haside _)).bind fun f hf => safe_pure ?_
      have him : f.im.size = m := (List.length_map _).trans hf
      exact (Vec.fits_ofReals hP him).divideBy hP _

namespace Difference

variable {F : Field R K S} {s : Scheme} {x : Vec R} {f0 : Vec K}

theorem moved_fits (hP : Entry.Closed P) {h : Vec R} (hx : x.size = n) (hh : h.size = n) :
    (moved x h : Vec K).Fits P n ∧ (movedBack x h : Vec K).Fits P n ∧
      (movedAside x h : Vec K).size = n := by
  have hlength : ∀ {α : Type} (f : R → R → α), (Vec.zipWith f x h).size = n := fun f => by
    have hmin : (List.zipWith f x h).length = min x.size h.size := List.length_zipWith
    rw [hx, hh, Nat.min_self] at hmin
    exact hmin
  exact ⟨Vec.fits_ofReals hP (hlength _), Vec.fits_ofReals hP (hlength _), hlength _⟩

theorem change_safe (hP : Entry.Closed P) (hF : F.Fits I P n m) (hx : x.size = n) {h : Vec R}
    (hh : h.size = n) (hf0 : f0.Fits P m) :
    Safe I (Vec.Fits P m) NoFault (change F s x h f0) := by
  obtain ⟨hfront, hback, haside⟩ := moved_fits (K := K) hP hx hh
  cases s with
  | forward =>
    apply (hF.kind hfront).bind
    intro f hf
    rw [Vec.align_of_size (hf.size.trans hf0.size.symm)]
    exact safe_pure (hf.sub hP hf0)
  | central =>
    apply (hF.kind hback).bind
    intro back hback
    apply (hF.kind hfront).bind
    intro front hfront
    rw [Vec.align_of_size (hfront.size.trans hback.size.symm)]
    exact safe_pure (hfront.sub hP hback)
  | complexStep =>
    refine (hF.size haside).bind fun f hf => safe_pure ?_
    exact Vec.fits_ofReals hP ((List.length_map _).trans hf)

theorem size_steps (cols : List Nat) : (steps s x cols).size = x.size := List.length_mapIdx

theorem columns_safe (hP : Entry.Closed P) (hF : F.Fits I P n m) (hx : x.size = n)
    (hf0 : f0.Fits P m) (lengths : List (R × Nat)) :
    Safe I (fun cols => ∀ c ∈ cols, c.Fits P m) NoFault (columns F s x f0 lengths) := by
  induction lengths with
  | nil => exact safe_pure fun _ h => nomatch h
  | cons length rest ih =>
    rcases length with ⟨len, j⟩
    apply (change_safe hP hF hx ((size_steps _).trans hx) hf0).bind
    intro top htop
    have hcolumn : (top.divideBy len).realPart.Fits P m := (htop.divideBy hP len).realPart hP
    have hfit : fit f0.size (top.divideBy len).realPart = .ok (top.divideBy len).realPart :=
      if_pos (hcolumn.size.trans hf0.size.symm)
    rw [hfit]
    apply (safe_pure (Q := Vec.Fits P m) hcolumn).bind
    intro column hcolumn
    refine ih.bind fun cols hcols => safe_pure fun c hc => ?_
    rcases List.mem_cons.1 hc with rfl | hc
    · exact hcolumn
    · exact hcols c hc

theorem dense_safe (hP : Entry.Closed P) (hF : F.Fits I P n m) (hx : x.size = n)
    (hf0 : f0.Fits P m) : Safe I (Grid.Fits P m n) NoFault (dense F s x f0) := by
  refine (columns_safe hP hF hx hf0 _).bind fun cols hcols => safe_pure ?_
  rw [hf0.size, hx]
  refine Grid.fits_ofFn fun i j => ?_
  have hcolumn : ∀ a ∈ (cols.map Vec.toList).getD j [], P a := by
    rw [List.getD_eq_getElem?_getD, List.getElem?_map]
    rcases hj : cols[j]? with _ | c
    · simp
    · exact (hcols c (List.mem_of_getElem? hj)).all
  exact Vec.Fits.getD (v := Vec.ofList _) ⟨rfl, hcolumn⟩ hP.zero i

theorem groupChanges_safe (hP : Entry.Closed P) (hF : F.Fits I P n m) (hx : x.size = n)
    (hf0 : f0.Fits P m) (groups : List (List Nat)) :
    Safe I (fun changes => ∀ c ∈ changes, c.2.Fits P m) NoFault
      (groupChanges F s x f0 groups) := by
  induction groups with
  | nil => exact safe_pure fun _ h => nomatch h
  | cons cols rest ih =>
    apply (change_safe hP hF hx ((size_steps _).trans hx) hf0).bind
    intro top htop
    refine ih.bind fun changes hchanges => safe_pure fun c hc => ?_
    rcases List.mem_cons.1 hc with rfl | hc
    · dsimp only
      split
      · exact htop.realPart hP
      · exact htop
    · exact hchanges c hc

/-- A pattern of the wrong size is a fault. -/
theorem sparse_safe (hP : Entry.Closed P) (hF : F.Fits I P n m) (hx : x.size = n)
    (hf0 : f0.Fits P m) (pattern : Grid Bool) :
    Safe I (Grid.Fits (Present P) m n) (fun _ => True) (sparse F s x f0 pattern) := by
  refine Safe.guard (fun _ => safe_throw trivial) ?_
  apply (groupChanges_safe hP hF hx hf0 _).of_noFault.bind
  intro changes hchanges
  dsimp only
  split
  · exact safe_throw trivial
  · rw [hf0.size, hx]
    refine safe_pure (Grid.fits_ofFn fun i j => ?_)
    split
    · intro y hy
      obtain ⟨a, ha, rfl⟩ := Option.map_eq_some_iff.1 hy
      obtain ⟨c, hc, rfl⟩ := Option.map_eq_some_iff.1 ha
      have hkind := hchanges c (List.mem_of_find?_eq_some hc)
      exact hP.div (hkind.getD hP.zero i) (hP.ofReal _)
    · exact Sparse.present_none

end Difference

end Products

section Matrices

variable {σ R K : Type} [Scalar R] [Entry R K] {P : K → Prop} {I : Workspace σ R K → Prop}
  {F : Vec K → Work σ R K (Vec K)} {n m : Nat}

theorem Operator.apply_safe (hP : Entry.Closed P)
    (hF : Difference.Field.Fits I P n m F) {A : Operator R K} (hA : A.Fits P m n)
    {v : Vec K} (hv : v.Fits P n) : Safe I (Vec.Fits P m) NoFault (A.apply F v) := by
  induction A with
  | concrete A => exact safe_pure (Dense.apply_fits hP hA hv)
  | derivative s x f0 =>
    refine (Difference.along_safe hP hF s hA.1 hA.2 hv).bind fun y hy => ?_
    rw [if_neg (not_not_intro (hy.size.trans hA.2.size.symm))]
    exact safe_pure hy
  | shifted A a ih =>
    rcases hA with ⟨hA, hsquare⟩
    apply (ih hA).bind
    intro y hy
    have hshift : (a • v : Vec K).Fits P m := hsquare ▸ hv.smul hP a
    rw [Vec.align_of_size (hy.size.trans hshift.size.symm)]
    exact safe_pure (hy.add hP hshift)

theorem Matrix.apply_safe (hP : Entry.Closed P) {A : Matrix R K}
    (hF : A.IsFree → Difference.Field.Fits I P n m F) (hA : A.Fits P m n)
    {v : Vec K} (hv : v.Fits P n) : Safe I (Vec.Fits P m) NoFault (A.apply F v) := by
  have hsize : ¬v.size ≠ A.cols := not_not_intro (hv.size.trans hA.sizes.2.symm)
  unfold Matrix.apply
  rw [if_neg hsize]
  cases A with
  | dense A => exact safe_pure (Dense.apply_fits hP hA hv)
  | sparse A => exact safe_pure (Sparse.apply_fits hP hA hv)
  | free A => exact Operator.apply_safe hP (hF trivial) hA hv

/-- A product with a concrete matrix reaches neither the stored Jacobian nor the linear system. -/
theorem Matrix.apply_ends (hP : Entry.Closed P) {A : Matrix R K} (hA : A.Fits P m n)
    (hfree : ¬A.IsFree) {v : Vec K} (hv : v.Fits P n) (w : Workspace σ R K) :
    (A.apply F v).Ends w
      (fun y t => y.Fits P m ∧ t.jacobian = w.jacobian ∧ t.system = w.system)
      (fun e _ => ∀ f, e ≠ .fault f) := by
  have hsafe := apply_safe (F := F) (I := fun t => t.machinery = w.machinery) hP
    (fun h => (hfree h).elim) hA hv
  refine (hsafe w rfl).mono (fun y t h => ?_) (fun e t h f hf => h.2 f hf)
  obtain ⟨hstored, hsystem⟩ := Prod.mk.inj h.1
  exact ⟨h.2, hstored, hsystem⟩

end Matrices

/-! ## Jacobians -/

section Jacobians

variable {σ R K : Type} [Scalar R] [Entry R K] {P : K → Prop} {p : Problem σ R K} {m : Nat}
  {s : JacobianSettings R} {u fu : Vec K}

omit [Scalar R] [Entry R K] in
theorem JacobianValue.not_isFree (J : JacobianValue K) : ¬(J.toMatrix : Matrix R K).IsFree := by
  cases J <;> exact id

/-- A matrix that can serve as a Jacobian of `m` equations. -/
structure Problem.Serves (p : Problem σ R K) (P : K → Prop) (m : Nat) (s : JacobianSettings R)
    (J : Matrix R K) : Prop where
  fits : J.Fits P m p.size
  finite : J.isFinite
  free : J.IsFree ↔ p.isMatrixFree s

theorem Problem.Serves.not_isFree {J : Matrix R K} (h : p.Serves P m s J)
    (hs : p.isMatrixFree s = false) : ¬J.IsFree := by
  intro hfree
  rw [h.free.1 hfree] at hs
  cases hs

/-- The caller's Jacobian is any matrix of entries of the kind `P`. -/
theorem Problem.analyticJacobian_safe (hm : p.Answers P m)
    (hp : p.size = Tensor.sizeOf p.guess.shape) (k : Option (Matrix R K) × LinearSystem R K)
    (hu : u.Fits P p.size) {jac : Callable σ R K (Tensor K) (JacobianValue K)}
    (hjacobian : p.jacobian = some jac) :
    Safe (fun w => w.machinery = k) (fun J => J.Fits P J.height J.cols ∧ ¬J.IsFree)
      (fun _ => True) (p.analyticJacobian u) := by
  intro w hw
  unfold analyticJacobian
  rw [restructure_ok hp hu.size, hjacobian]
  simp only [ends_bind, ends_ofFault_ok rfl, Workspace.call, ends_ofFun, ends_pure]
  constructor
  · intro J w' h
    refine ⟨?_, ?_, J.not_isFree⟩
    · rw [← (Prod.mk.inj h).2]
      exact hw
    · exact hm.jacobian jac hjacobian u _ J _ hu.size (Prod.ext (Prod.mk.inj h).1 rfl) hu.all
  · intro e w' h
    refine ⟨?_, fun _ _ => trivial⟩
    rw [← (Prod.mk.inj h).2]
    exact hw

theorem Problem.rawJacobian_safe (hP : Entry.Closed P) (hm : p.Answers P m)
    (hp : p.size = Tensor.sizeOf p.guess.shape) (k : Option (Matrix R K) × LinearSystem R K)
    (hu : u.Fits P p.size) (hfu : fu.Fits P m) :
    Safe (fun w => w.machinery = k)
      (fun J => J.Fits P J.height J.cols ∧ (J.IsFree ↔ p.isMatrixFree s)) (fun _ => True)
      (p.rawJacobian s u (some fu)) := by
  have hF := evaluate_fits hm hp k
  have hx : u.re.size = p.size := (List.length_map _).trans hu.size
  unfold rawJacobian
  cases hjacobian : p.jacobian with
  | some jac =>
    have hfree : p.isMatrixFree s = false := by simp [isMatrixFree, hjacobian]
    rw [hfree]
    exact (analyticJacobian_safe hm hp k hu hjacobian).mono
      (fun J hJ => ⟨hJ.1, iff_of_false hJ.2 (by decide)⟩) (fun _ h => h)
  | none =>
    simp only [pure_bind]
    by_cases hconcrete : s.concrete
    · have hfree : p.isMatrixFree s = false := by simp [isMatrixFree, hconcrete]
      simp only [hconcrete, Bool.not_true, Bool.false_eq_true, if_false, hfree]
      cases p.pattern with
      | some pattern =>
        refine (Difference.sparse_safe hP hF hx hfu pattern).bind fun A hA => safe_pure ?_
        have hfits := Sparse.fits_ofPlaces hP hA
        refine ⟨?_, iff_of_false id (by decide)⟩
        obtain ⟨hheight, hcols⟩ := Matrix.Fits.sizes (A := .sparse (.ofPlaces A)) hfits
        rw [hheight, hcols]
        exact hfits
      | none =>
        refine (Difference.dense_safe hP hF hx hfu).of_noFault.bind fun A hA => safe_pure ?_
        refine ⟨?_, iff_of_false id (by decide)⟩
        obtain ⟨hheight, hcols⟩ := Matrix.Fits.sizes (A := .dense A) hA
        rw [hheight, hcols]
        exact hA
    · have hfree : p.isMatrixFree s = true := by
        simp only [isMatrixFree, hjacobian, hconcrete]
        rfl
      simp only [hconcrete, Bool.not_false, if_true, hfree]
      exact safe_pure ⟨⟨rfl, rfl, hfu.all⟩, iff_of_true trivial trivial⟩

theorem Problem.serves_of_defect {J : Matrix R K} (hJ : J.Fits P J.height J.cols)
    (hfree : J.IsFree ↔ p.isMatrixFree s) (hu : u.size = p.size) (hfu : fu.size = m)
    (h : jacobianDefect? J ((some fu).map Vec.size) u.size = none) : p.Serves P m s J := by
  obtain ⟨hshape, hfinite⟩ := sound_of_defect h
  obtain ⟨hheight, hcols⟩ : J.height = fu.size ∧ J.cols = u.size := by
    simpa [Matrix.shape] using hshape fu.size rfl
  refine ⟨?_, hfinite, hfree⟩
  rw [hheight, hcols, hfu, hu] at hJ
  exact hJ

/-- A Jacobian is stored when it is answered, and its errors are no faults. -/
theorem Problem.jacobianAt_safe (hP : Entry.Closed P) (hm : p.Answers P m)
    (hp : p.size = Tensor.sizeOf p.guess.shape) (hu : u.Fits P p.size) (hfu : fu.Fits P m)
    (w : Workspace σ R K) :
    (p.jacobianAt s u (some fu)).Ends w
      (fun J w' => w'.jacobian = some J ∧ w'.system = w.system ∧ p.Serves P m s J)
      (fun e _ => ∀ f, e ≠ .fault f) := by
  unfold jacobianAt
  have hraw := rawJacobian_safe hP hm hp w.machinery (s := s) hu hfu
  refine (ends_mapError.2 ((hraw w rfl).mono (fun J w' h => h)
    (fun e w' _ f h => nomatch h))).bind (fun J w' hJ => ?_) (fun _ _ h => h)
  rcases hJ with ⟨hmachinery, hfits, hfree⟩
  split
  next => exact fun f h => nomatch h
  next hnone =>
    exact ⟨rfl, congrArg Prod.snd hmachinery, serves_of_defect hfits hfree hu.size hfu.size hnone⟩

end Jacobians

end RootFinding
