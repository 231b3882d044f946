import RootFinding.Proofs.Safe

/-!
# Sizes in the routines of a backend

The solution of a linear system has an entry for each column of the matrix, of the kind of its
entries, whichever routine computes it.

* `Backend.Fits B P`: that this holds of a backend, for entries of the kind `P`. The iterative
  method has no fault of its own except an iteration that is allowed no step.
* `TriangularFactors.solve_fits`, `LeastSquares.solve_fits`, `Gmres.solve_safe`: the routines of
  this library, together `Backend.standard_fits`.
-/

namespace RootFinding

open Action

variable {σ R K S : Type} [Scalar R] [Entry R K] {P : K → Prop} {n h w : Nat}

/-- The solutions of a backend have the sizes and the kind of entries of their systems. -/
structure Backend.Fits (B : Backend σ R K) (P : K → Prop) : Prop where
  luSolve {n : Nat} {D : Dense K} {b : Vec K} : D.Fits P n n → b.Fits P n →
    (B.luSolve D b).Fits P n
  sparseSolve {n : Nat} {D : Dense K} {b : Vec K} : D.Fits P n n → b.Fits P n →
    (B.sparseSolve D b).Fits P n
  leastSquares {h w : Nat} {D : Dense K} {b : Vec K} : D.Fits P h w → b.Fits P h →
    (B.leastSquares D b).Fits P w
  gmres {I : Workspace σ R K → Prop} {n : Nat} {apply : Vec K → Work σ R K (Vec K)}
    {s : KrylovSettings R} {b : Vec K} {start : Option (Vec K)} : 0 < n →
    (∀ v, v.Fits P n → Safe I (Vec.Fits P n) NoFault (apply v)) → b.Fits P n →
    (∀ x ∈ start, x.Fits P n) →
    Safe I (fun r => r.1.Fits P n)
      (fun f => f = .noIteration ∧ (s.restart = some 0 ∨ s.maxiter = some 0))
      (B.gmres apply s b start)

/-! ## Elimination -/

namespace TriangularFactors

theorem length_exchange {α : Type} (xs : List α) (k : Nat) :
    (exchange xs k).length = xs.length := by
  unfold exchange
  split
  · rfl
  · split <;> simp
  · rfl

theorem mem_of_mem_exchange {α : Type} {xs : List α} {k : Nat} {x : α} (hx : x ∈ exchange xs k) :
    x ∈ xs := by
  unfold exchange at hx
  split at hx
  · exact hx
  next y rest z hz =>
    split at hx
    · exact hx
    · rcases List.mem_cons.1 hx with rfl | hx
      · exact List.mem_of_getElem? hz
      · rcases List.mem_or_eq_of_mem_set hx with hx | rfl
        · exact List.mem_cons_of_mem y hx
        · exact List.mem_cons_self
  · exact hx

theorem exchange_fits {xs : List K} (hxs : Vec.Fits P n xs) (k : Nat) :
    Vec.Fits P n (exchange xs k) :=
  ⟨(length_exchange xs k).trans hxs.size, fun x hx => hxs.all x (mem_of_mem_exchange hx)⟩

theorem tail_fits {xs : List K} (hxs : Vec.Fits P (n + 1) xs) : Vec.Fits P n xs.tail := by
  refine ⟨?_, fun x hx => hxs.all x (List.mem_of_mem_tail hx)⟩
  have hlength : xs.length = n + 1 := hxs.size
  change xs.tail.length = n
  rw [List.length_tail, hlength]
  rfl

theorem headD_all {xs : List K} (hxs : ∀ x ∈ xs, P x) {d : K} (hd : P d) : P (xs.headD d) := by
  cases xs with
  | nil => exact hd
  | cons x xs => exact hxs x List.mem_cons_self

theorem foldl_sub_all (hP : Entry.Closed P) {xs : List K} (hxs : ∀ x ∈ xs, P x) {a : K}
    (ha : P a) : P (xs.foldl (· - ·) a) := by
  induction xs generalizing a with
  | nil => exact ha
  | cons x xs ih =>
    exact ih (fun y hy => hxs y (List.mem_cons_of_mem x hy)) (hP.sub ha (hxs x List.mem_cons_self))

/-- Rows of `w` entries each, as many as `h`. -/
abbrev RowsFit (P : K → Prop) (h w : Nat) (rows : List (List K)) : Prop :=
  Vec.Fits (fun r : List K => Vec.Fits P w r) h rows

theorem multipliers_fits (hP : Entry.Closed P) {others : List (List K)}
    (hothers : RowsFit P n (n + 1) others) {pivot : K} (hpivot : P pivot) :
    Vec.Fits P n (others.map fun r =>
      if Entry.isZero pivot then r.headD Entry.zero else r.headD Entry.zero / pivot) := by
  refine Vec.Fits.map hothers fun r hr => ?_
  have hhead : P (List.headD r Entry.zero) := headD_all hr.all hP.zero
  split
  · exact hhead
  · exact hP.div hhead hpivot

theorem left_fits (hP : Entry.Closed P) {multipliers : List K} {others : List (List K)}
    {top : List K} (hmultipliers : Vec.Fits P n multipliers)
    (hothers : RowsFit P n (n + 1) others) (htop : Vec.Fits P (n + 1) top) :
    RowsFit P n n (List.zipWith
      (fun m r => List.zipWith (fun x a => x - m * a) r.tail top.tail) multipliers others) :=
  hmultipliers.zipWith hothers fun _ _ hm hr =>
    (tail_fits hr).zipWith (tail_fits htop) fun _ _ hx ha => hP.sub hx (hP.mul hm ha)

/-- The factors of a square matrix give a solution of its size. -/
theorem solve_fits (hP : Entry.Closed P) {rows : List (List K)}
    (hrows : RowsFit P n n rows) {b : List K} (hb : Vec.Fits P n b) :
    Vec.Fits P n ((ofRows n rows).solve b) := by
  induction n generalizing rows b with
  | zero => exact ⟨rfl, fun _ hx => nomatch hx⟩
  | succ n ih =>
    obtain ⟨k, hk⟩ : ∃ k, k = pivotPlace (rows.map (·.headD Entry.zero)) := ⟨_, rfl⟩
    have hchosen : RowsFit P (n + 1) (n + 1) (exchange rows k) :=
      ⟨(length_exchange rows k).trans hrows.size,
        fun r hr => hrows.all r (mem_of_mem_exchange hr)⟩
    have hfront := exchange_fits hb k
    unfold ofRows
    simp only [← hk]
    rcases hrows' : exchange rows k with _ | ⟨top, others⟩
    · rw [hrows'] at hchosen
      cases hchosen.size
    · rcases hb' : exchange b k with _ | ⟨y, ys⟩
      · rw [hb'] at hfront
        cases hfront.size
      · rw [hrows'] at hchosen
        rw [hb'] at hfront
        have htop : Vec.Fits P (n + 1) top := hchosen.all top List.mem_cons_self
        have hy : P y := hfront.all y List.mem_cons_self
        have hothers : RowsFit P n (n + 1) others :=
          ⟨Nat.succ.inj hchosen.size, fun r hr => hchosen.all r (List.mem_cons_of_mem top hr)⟩
        have hpivot : P (top.headD Entry.zero) := headD_all htop.all hP.zero
        have hmultipliers := multipliers_fits hP hothers hpivot
        have hright := hmultipliers.zipWith (tail_fits hfront) (T := P)
          (f := fun m x => x - m * y) fun m x hm hx => hP.sub hx (hP.mul hm hy)
        have hxs := ih (left_fits hP hmultipliers hothers htop) hright
        have hproducts := (tail_fits htop).zipWith hxs (T := P) fun _ _ => hP.mul
        simp only [solve, hb']
        refine ⟨congrArg (· + 1) hxs.size, fun x hx => ?_⟩
        rcases List.mem_cons.1 hx with rfl | hx
        · exact hP.div (foldl_sub_all hP hproducts.all hy) hpivot
        · exact hxs.all x hx

theorem ofDense_solve_fits (hP : Entry.Closed P) {D : Dense K} (hD : D.Fits P n n) {b : Vec K}
    (hb : b.Fits P n) : (Vec.ofList ((ofDense D).solve b.toList)).Fits P n := by
  unfold ofDense
  rw [hD.cols]
  exact solve_fits hP ⟨hD.height, fun r hr => hD.row hr⟩ hb

end TriangularFactors

/-! ## Least squares -/

namespace LeastSquares

/-- A pair of columns of the given lengths. -/
structure Pair.Fits (P : K → Prop) (h w : Nat) (p : Pair K) : Prop where
  image : p.image.Fits P h
  source : p.source.Fits P w

theorem turn_fits (hP : Entry.Closed P) {p q : Pair K} (hp : p.Fits P h w) (hq : q.Fits P h w) :
    (turn p q).1.Fits P h w ∧ (turn p q).2.Fits P h w := by
  have hinner : P (Vec.inner p.image q.image) := hp.image.inner hP hq.image
  unfold turn
  dsimp only
  split
  · exact ⟨hp, hq⟩
  · have hphase : ∀ a : R, P (Entry.conj (Vec.inner p.image q.image) / Entry.ofReal a) := fun a =>
      hP.div (hP.conj hinner) (hP.ofReal a)
    have himage := hq.image.scale hP (hphase (Entry.abs (Vec.inner p.image q.image)))
    have hsource := hq.source.scale hP (hphase (Entry.abs (Vec.inner p.image q.image)))
    exact ⟨⟨(hp.image.smul hP _).sub hP (himage.smul hP _),
        (hp.source.smul hP _).sub hP (hsource.smul hP _)⟩,
      ⟨(hp.image.smul hP _).add hP (himage.smul hP _),
        (hp.source.smul hP _).add hP (hsource.smul hP _)⟩⟩

theorem turnAll_fits (hP : Entry.Closed P) {p : Pair K} {qs : List (Pair K)} (hp : p.Fits P h w)
    (hqs : ∀ q ∈ qs, q.Fits P h w) :
    (turnAll p qs).1.Fits P h w ∧ ∀ q ∈ (turnAll p qs).2, q.Fits P h w := by
  induction qs generalizing p with
  | nil => exact ⟨hp, fun _ hq => nomatch hq⟩
  | cons q rest ih =>
    obtain ⟨hp', hq'⟩ := turn_fits hP hp (hqs q List.mem_cons_self)
    obtain ⟨hp'', hrest⟩ := ih hp' fun x hx => hqs x (List.mem_cons_of_mem q hx)
    refine ⟨hp'', fun x hx => ?_⟩
    rcases List.mem_cons.1 hx with rfl | hx
    · exact hq'
    · exact hrest x hx

theorem sweep_fits (hP : Entry.Closed P) {ps : List (Pair K)} (hps : ∀ p ∈ ps, p.Fits P h w) :
    ∀ p ∈ sweep ps, p.Fits P h w := by
  induction ps using sweep.induct with
  | case1 =>
    intro p hp
    rw [sweep] at hp
    cases hp
  | case2 p rest ih =>
    obtain ⟨hp, hrest⟩ := turnAll_fits hP (hps p List.mem_cons_self)
      fun q hq => hps q (List.mem_cons_of_mem p hq)
    intro q hq
    rw [sweep] at hq
    rcases List.mem_cons.1 hq with rfl | hq
    · exact hp
    · exact ih hrest q hq

theorem sweeps_fits (hP : Entry.Closed P) (k : Nat) {ps : List (Pair K)}
    (hps : ∀ p ∈ ps, p.Fits P h w) : ∀ p ∈ sweeps k ps, p.Fits P h w := by
  induction k generalizing ps with
  | zero => exact hps
  | succ k ih => exact ih (sweep_fits hP hps)

theorem pairs_fits (hP : Entry.Closed P) {A : Dense K} (hA : A.Fits P h w) :
    ∀ p ∈ pairs A, p.Fits P h w := by
  intro p hp
  obtain ⟨j, hj, rfl⟩ := List.mem_mapIdx.1 hp
  have hlength : (Grid.columns A (Entry.zero : K)).length = w :=
    Grid.length_columns.trans hA.cols
  refine ⟨hA.column hP.zero (List.getElem_mem _), ?_⟩
  rw [hlength]
  exact (Vec.fits_zeros hP).update (fun _ _ => hP.one) j

theorem singular_fits (hP : Entry.Closed P) {A : Dense K} (hA : A.Fits P h w) :
    ∀ p ∈ singular A, p.2.Fits P h w := by
  intro p hp
  obtain ⟨q, hq, rfl⟩ := List.mem_map.1 (List.mem_filter.1 hp).1
  exact sweeps_fits hP sweepCount (pairs_fits hP hA) q hq

theorem foldl_add_fits (hP : Entry.Closed P) {α : Type} {xs : List α} {f : α → Vec K}
    (hf : ∀ x ∈ xs, (f x).Fits P n) {a : Vec K} (ha : a.Fits P n) :
    (xs.foldl (fun a x => a + f x) a).Fits P n := by
  induction xs generalizing a with
  | nil => exact ha
  | cons x xs ih =>
    exact ih (fun y hy => hf y (List.mem_cons_of_mem x hy))
      (ha.add hP (hf x List.mem_cons_self))

theorem solveModerate_fits (hP : Entry.Closed P) {A : Dense K} (hA : A.Fits P h w) {b : Vec K}
    (hb : b.Fits P h) : (solveModerate A b).Fits P w := by
  have hstart : P (Entry.zeroAs (Dense.isReal A && b.isReal)) := hP.zeroAs fun hreal => by
    rcases Bool.and_eq_false_iff.1 hreal with hreal | hreal
    · exact Dense.exists_not_isReal hA hreal
    · exact hb.exists_not_isReal hreal
  unfold solveModerate
  rw [hA.cols]
  split
  · refine foldl_add_fits hP (fun p hp => ?_) (Vec.fits_replicate hstart)
    have hpair := singular_fits hP hA p hp
    exact hpair.source.scale hP (hP.div (hpair.image.inner hP hb) (hP.ofReal _))
  · have hadjoint : (adjoint A).Fits P w h := (hA.transpose hP.zero).map fun _ => hP.conj
    refine foldl_add_fits hP (fun p hp => ?_) (Vec.fits_replicate hstart)
    have hpair := singular_fits hP hadjoint p hp
    exact hpair.image.scale hP (hP.div (hpair.source.inner hP hb) (hP.ofReal _))

theorem solve_fits (hP : Entry.Closed P) {A : Dense K} (hA : A.Fits P h w) {b : Vec K}
    (hb : b.Fits P h) : (solve A b).Fits P w := by
  unfold solve
  dsimp only
  split
  · exact solveModerate_fits hP hA hb
  · have hscaled : ∀ a : R, (A.map (· / Entry.ofReal a)).Fits P h w := fun a =>
      hA.map fun _ hx => hP.div hx (hP.ofReal a)
    exact (solveModerate_fits hP (hscaled _) hb).divideBy hP _

end LeastSquares

/-! ## Generalised minimal residuals -/

namespace Gmres

/-- A cycle over vectors of `n` entries: its basis, and the numbers that it keeps. -/
structure Cycle.Fits (P : K → Prop) (n : Nat) (c : Cycle R K) : Prop where
  basis : ∀ v ∈ c.basis, v.Fits P n
  nonempty : c.basis ≠ []
  columns : ∀ col ∈ c.columns, ∀ x ∈ col, P x
  rotations : ∀ r ∈ c.rotations, P r.sine
  solved : ∀ x ∈ c.solved, P x
  pending : P c.pending

theorem orthogonalize_fits (hP : Entry.Closed P) {basis : List (Vec K)}
    (hbasis : ∀ v ∈ basis, v.Fits P n) {x : Vec K} (hx : x.Fits P n) :
    (∀ a ∈ (orthogonalize basis x).1, P a) ∧ (orthogonalize basis x).2.Fits P n := by
  induction basis generalizing x with
  | nil => exact ⟨fun _ h => (nomatch h), hx⟩
  | cons v rest ih =>
    have hv := hbasis v List.mem_cons_self
    have hinner : P (Vec.inner v x) := hv.inner hP hx
    obtain ⟨hs, hrest⟩ := ih (fun y hy => hbasis y (List.mem_cons_of_mem v hy))
      (hx.sub hP (hv.scale hP hinner))
    refine ⟨fun a ha => ?_, hrest⟩
    rcases List.mem_cons.1 ha with rfl | ha
    · exact hinner
    · exact hs a ha

theorem apply_all (hP : Entry.Closed P) {r : Rotation R K} (hr : P r.sine) {x y : K} (hx : P x)
    (hy : P y) : P (r.apply x y).1 ∧ P (r.apply x y).2 :=
  ⟨hP.add (hP.mul (hP.ofReal _) hx) (hP.mul hr hy),
    hP.sub (hP.mul (hP.ofReal _) hy) (hP.mul (hP.conj hr) hx)⟩

theorem rotate_all (hP : Entry.Closed P) {rotations : List (Rotation R K)}
    (hrotations : ∀ r ∈ rotations, P r.sine) {column : List K} (hcolumn : ∀ x ∈ column, P x) :
    ∀ x ∈ rotate rotations column, P x := by
  induction rotations generalizing column with
  | nil =>
    unfold rotate
    exact hcolumn
  | cons r rest ih =>
    match column with
    | [] => exact fun _ h => nomatch h
    | [x] => exact hcolumn
    | x :: y :: column =>
      obtain ⟨hx, hy⟩ := apply_all hP (hrotations r List.mem_cons_self)
        (hcolumn x List.mem_cons_self) (hcolumn y (List.mem_cons_of_mem x List.mem_cons_self))
      have hrest : ∀ a ∈ (r.apply x y).2 :: column, P a := by
        intro a ha
        rcases List.mem_cons.1 ha with rfl | ha
        · exact hy
        · exact hcolumn a (List.mem_cons_of_mem x (List.mem_cons_of_mem y ha))
      intro a ha
      rcases List.mem_cons.1 ha with rfl | ha
      · exact hx
      · exact ih (fun q hq => hrotations q (List.mem_cons_of_mem r hq)) hrest a ha

theorem annihilating_all (hP : Entry.Closed P) {f g : K} (hf : P f) (hg : P g) :
    P (Rotation.annihilating f g).1.sine ∧ P (Rotation.annihilating f g).2 := by
  unfold Rotation.annihilating
  split
  · exact ⟨hP.zero, hf⟩
  · split
    · exact ⟨hP.div (hP.conj hg) (hP.ofReal _), hP.ofReal _⟩
    · have hunit : P (f / Entry.ofReal (Entry.abs f)) := hP.div hf (hP.ofReal _)
      exact ⟨hP.div (hP.mul hunit (hP.conj hg)) (hP.ofReal _), hP.mul hunit (hP.ofReal _)⟩

theorem all_append {α : Type} {P : α → Prop} {xs ys : List α} (hxs : ∀ x ∈ xs, P x)
    (hys : ∀ y ∈ ys, P y) : ∀ x ∈ xs ++ ys, P x := by
  intro x hx
  rcases List.mem_append.1 hx with hx | hx
  · exact hxs x hx
  · exact hys x hx

theorem all_singleton {α : Type} {P : α → Prop} {x : α} (hx : P x) : ∀ y ∈ [x], P y := by
  intro y hy
  rw [List.mem_singleton.1 hy]
  exact hx

theorem getD_all {xs : List K} (hxs : ∀ x ∈ xs, P x) {d : K} (hd : P d) (i : Nat) :
    P (xs.getD i d) :=
  Vec.Fits.getD (v := Vec.ofList xs) ⟨rfl, hxs⟩ hd i

/-- A step keeps the sizes. -/
theorem extend_fits (hP : Entry.Closed P) {c : Cycle R K} (hc : c.Fits P n) {x : Vec K}
    (hx : x.Fits P n) : (c.extend x).Fits P n := by
  obtain ⟨hcomponents, hrest⟩ := orthogonalize_fits hP hc.basis hx
  unfold Cycle.extend
  obtain ⟨below, hbelow, hbelowAll⟩ : ∃ below : K, below =
      (if (orthogonalize c.basis x).2.norm ≤ Scalar.epsilon * x.norm then Entry.zero
        else Entry.ofReal (orthogonalize c.basis x).2.norm) ∧ P below := by
    refine ⟨_, rfl, ?_⟩
    split
    · exact hP.zero
    · exact hP.ofReal _
  have hcolumn : ∀ a ∈ rotate c.rotations ((orthogonalize c.basis x).1 ++ [below]), P a :=
    rotate_all hP hc.rotations (all_append hcomponents (all_singleton hbelowAll))
  simp only [decide_eq_true_eq, ← hbelow]
  generalize rotate c.rotations ((orthogonalize c.basis x).1 ++ [below]) = column at hcolumn ⊢
  have hlast : ∀ i, P ((column.drop (column.length - 2)).getD i Entry.zero) := fun i =>
    getD_all (fun a ha => hcolumn a (List.mem_of_mem_drop ha)) hP.zero i
  obtain ⟨hsine, hcorner⟩ := annihilating_all hP (hlast 0) (hlast 1)
  refine ⟨all_append hc.basis (all_singleton ?_), ?_, all_append hc.columns (all_singleton ?_),
    all_append hc.rotations (all_singleton hsine), all_append hc.solved (all_singleton ?_), ?_⟩
  · split
    · exact hrest
    · exact hrest.smul hP _
  · simp
  · exact all_append (fun a ha => hcolumn a (List.mem_of_mem_take ha)) (all_singleton hcorner)
  · exact hP.mul (hP.ofReal _) hc.pending
  · exact hP.mul (hP.neg (hP.conj hsine)) hc.pending

theorem backSubstitute_all (hP : Entry.Closed P) {columns : List (List K)}
    (hcolumns : ∀ col ∈ columns, ∀ x ∈ col, P x) {y : List K} (hy : ∀ x ∈ y, P x) :
    ∀ x ∈ backSubstitute columns y, P x := by
  induction columns generalizing y with
  | nil => exact fun _ h => nomatch h
  | cons column older ih =>
    have hcolumn := hcolumns column List.mem_cons_self
    have hlast : P (y.getD older.length Entry.zero) := getD_all hy hP.zero _
    have htake : ∀ x ∈ y.take older.length, P x := fun x hx => hy x (List.mem_of_mem_take hx)
    have hvalue : P (if Entry.isZero (y.getD older.length Entry.zero)
        then y.getD older.length Entry.zero
        else y.getD older.length Entry.zero / column.getD older.length Entry.zero) := by
      split
      · exact hlast
      · exact hP.div hlast (getD_all hcolumn hP.zero _)
    unfold backSubstitute
    refine all_append (ih (fun col hcol => hcolumns col (List.mem_cons_of_mem column hcol)) ?_)
      (all_singleton hvalue)
    split
    · exact htake
    next hzero =>
      rw [if_neg hzero] at hvalue
      intro x hx
      obtain ⟨i, hi, rfl⟩ := List.mem_iff_getElem.1 hx
      have hlength := hi
      rw [List.length_zipWith] at hlength
      rw [List.getElem_zipWith]
      have hfront := htake _ (List.getElem_mem (show i < (y.take older.length).length by omega))
      exact hP.sub hfront (hP.mul hvalue (hcolumn _ (List.getElem_mem _)))

theorem correction_fits (hP : Entry.Closed P) {c : Cycle R K} (hc : c.Fits P n) :
    (c.correction n).Fits P n := by
  have hcoordinates : ∀ x ∈ c.coordinates, P x := by
    unfold Cycle.coordinates
    refine backSubstitute_all hP (fun col hcol => hc.columns col (List.mem_reverse.1 hcol)) ?_
    split
    · intro x hx
      rcases List.mem_or_eq_of_mem_set hx with hx | rfl
      · exact hc.solved x hx
      · exact hP.zero
    · exact hc.solved
  unfold Cycle.correction
  refine LeastSquares.foldl_add_fits (f := fun v => v) hP (fun v hv => ?_) (Vec.fits_zeros hP)
  obtain ⟨i, hi, rfl⟩ := List.mem_iff_getElem.1 hv
  rw [List.getElem_zipWith]
  exact (hc.basis _ (List.getElem_mem _)).scale hP (hcoordinates _ (List.getElem_mem _))

section Solve

variable {I : S → Prop} {Φ : Fault → Prop} {apply : Vec K → Action (Thrown R K) S (Vec K)}
  {x b r : Vec K}

theorem run_safe (hP : Entry.Closed P)
    (hA : ∀ v, v.Fits P n → Safe I (Vec.Fits P n) Φ (apply v)) (tolerance : R) (k : Nat)
    {c : Cycle R K} (hc : c.Fits P n) :
    Safe I (Cycle.Fits P n) Φ (c.run apply tolerance k) := by
  induction k generalizing c with
  | zero => exact safe_pure hc
  | succ k ih =>
    have hlast : (c.basis.getLastD (.ofList [])).Fits P n := by
      obtain ⟨v, vs, hbasis⟩ := List.exists_cons_of_ne_nil hc.nonempty
      have hmem : (v :: vs).getLastD (.ofList []) ∈ v :: vs := by
        rw [List.getLastD_cons, ← List.getLast_eq_getLastD]
        exact List.getLast_mem (List.cons_ne_nil v vs)
      rw [hbasis]
      exact hc.basis _ (hbasis ▸ hmem)
    apply (hA _ hlast).bind
    intro w hw
    have hnext := extend_fits hP hc hw
    dsimp only
    split
    · exact safe_pure hnext
    · exact ih hnext

theorem start_fits (hP : Entry.Closed P) (hr : r.Fits P n) (size : R) :
    ({ basis := [(1.0 / size) • r], columns := [], rotations := [], solved := []
       pending := Entry.ofReal size, residual := 0.0, closed := false } : Cycle R K).Fits P n where
  basis := all_singleton (hr.smul hP _)
  nonempty := List.cons_ne_nil _ _
  columns := fun _ h => nomatch h
  rotations := fun _ h => nomatch h
  solved := fun _ h => nomatch h
  pending := hP.ofReal _

theorem cycles_safe (hP : Entry.Closed P)
    (hA : ∀ v, v.Fits P n → Safe I (Vec.Fits P n) Φ (apply v)) (hb : b.Fits P n)
    (restart limit fuel : Nat) (t : Tolerances R) (hx : x.Fits P n) (hr : r.Fits P n) :
    Safe I (fun r => r.1.Fits P n) Φ (cycles apply b restart limit fuel t x r) := by
  induction fuel generalizing t x r with
  | zero => exact safe_pure hx
  | succ fuel ih =>
    apply (run_safe hP hA _ _ (start_fits hP hr _)).bind
    intro c hc
    have hcorrection : (c.correction b.size).Fits P n := by
      rw [hb.size]
      exact correction_fits hP hc
    have hx' := hx.add hP hcorrection
    apply (hA _ hx').bind
    intro product hproduct
    dsimp only
    split
    · exact safe_pure hx'
    · split
      · exact safe_pure hx'
      · exact ih _ hx' (hb.sub hP hproduct)

theorem iterate_safe (hP : Entry.Closed P)
    (hA : ∀ v, v.Fits P n → Safe I (Vec.Fits P n) Φ (apply v)) (hb : b.Fits P n)
    (restart limit : Nat) (t : Tolerances R) (hx : x.Fits P n) (hr : r.Fits P n) :
    Safe I (fun r => r.1.Fits P n) (fun f => Φ f ∨ f = .noIteration ∧ restart = 0)
      (iterate apply b restart limit t x r) := by
  unfold iterate
  split
  · exact safe_pure hx
  · exact Safe.guard (fun hzero => safe_throw (.inr ⟨rfl, hzero⟩))
      ((cycles_safe hP hA hb _ _ _ _ hx hr).mono (fun _ h => h) fun _ => .inl)

/-- The iteration has no fault but those of its products, unless it is allowed no step. -/
theorem solve_safe (hP : Entry.Closed P)
    (hA : ∀ v, v.Fits P n → Safe I (Vec.Fits P n) Φ (apply v)) (hb : b.Fits P n)
    {s : KrylovSettings R} {start : Option (Vec K)} (hstart : ∀ x ∈ start, x.Fits P n) :
    Safe I (fun r => r.1.Fits P n)
      (fun f => Φ f ∨ f = .noIteration ∧ (0 < n → s.restart = some 0 ∨ s.maxiter = some 0))
      (solve apply s b start) := by
  have hx : (start.getD b.zerosLike).Fits P n := by
    cases start with
    | none => exact hb.zerosLike hP
    | some x => exact hstart x rfl
  have hlimit : s.maxiter.getD (10 * b.size) = 0 → 0 < n → s.maxiter = some 0 := by
    rw [hb.size]
    cases s.maxiter with
    | none => exact fun h hn => by simp only [Option.getD_none] at h; omega
    | some k => exact fun h _ => congrArg some h
  have hrestart : min (s.restart.getD 20) b.size = 0 → 0 < n → s.restart = some 0 := by
    rw [hb.size]
    cases s.restart with
    | none => exact fun h hn => by simp only [Option.getD_none] at h; omega
    | some k => exact fun h hn => by simp only [Option.getD_some] at h; congr; omega
  have hiterate : ∀ t (r : Vec K), r.Fits P n →
      Safe I (fun r => r.1.Fits P n)
        (fun f => Φ f ∨ f = .noIteration ∧ (0 < n → s.restart = some 0 ∨ s.maxiter = some 0))
        (iterate apply b (min (s.restart.getD 20) b.size) (s.maxiter.getD (10 * b.size)) t
          (start.getD b.zerosLike) r) := fun t r hr =>
    (iterate_safe hP hA hb _ _ t hx hr).mono (fun _ h => h)
      fun f hf => hf.imp_right fun h => ⟨h.1, fun hn => .inl (hrestart h.2 hn)⟩
  unfold solve
  dsimp only
  split
  · exact safe_pure hb
  · refine Safe.guard (fun hzero => safe_throw (.inr ⟨rfl, fun hn => .inr (hlimit hzero hn)⟩)) ?_
    split
    · exact hiterate _ _ hb
    · exact ((hA _ hx).mono (fun _ h => h) fun _ => .inl).bind fun product hproduct =>
        hiterate _ _ (hb.sub hP hproduct)

end Solve

end Gmres

/-- The routines of this library. -/
theorem Backend.standard_fits (hP : Entry.Closed P) :
    (Backend.standard : Backend σ R K).Fits P where
  luSolve hD hb := TriangularFactors.ofDense_solve_fits hP hD hb
  sparseSolve hD hb := TriangularFactors.ofDense_solve_fits hP hD hb
  leastSquares hD hb := LeastSquares.solve_fits hP hD hb
  gmres hn hA hb hstart := (Gmres.solve_safe hP hA hb hstart).mono (fun _ h => h)
    fun _ hf => hf.elim False.elim fun h => ⟨h.1, h.2 hn⟩

end RootFinding
