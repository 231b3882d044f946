import RootFinding.Proofs.Elimination
import RootFinding.Proofs.ExactParts

/-!
# Least squares with a diagonal matrix

The least squares method takes the singular values of a matrix from columns that it turns until they
are orthogonal, and drops those that are negligible beside the largest one. The columns of a
diagonal matrix are not turned, so its entries are its singular values: of two of them the smaller
one counts, or the solution is zero in its place, whatever the right-hand side is there.

* `LeastSquares.singular_diagonal`: the singular values that count.
* `LeastSquares.solve_diagonal`: the solution. `LinearSystem.answers_diagonal`: the linear system
  answers it.
-/

namespace RootFinding

open Action Exact ExactEntry

namespace LeastSquares

/-- Finite columns that are orthogonal are not turned. -/
theorem turn_of_orthogonal {p q : Pair Exact} (hp : p.image.isFinite = true)
    (hq : q.image.isFinite = true) (h : Vec.inner p.image q.image = real 0) :
    turn p q = (p, q) := by
  obtain ⟨x, hx, hpx⟩ := norm_real hp
  obtain ⟨y, hy, hqy⟩ := norm_real hq
  have hsmall : (Entry.abs (real 0 : Exact) : Exact) ≤
      Scalar.epsilon * Scalar.sqrt p.image.normSq * Scalar.sqrt q.image.normSq := by
    change _ ≤ Scalar.epsilon * p.image.norm * q.image.norm
    rw [hpx, hqy, epsilon_eq]
    change real |0| ≤ real _
    rw [real_le, abs_zero]
    positivity
  unfold turn
  simp only [h]
  exact if_pos hsmall

/-- Two orthogonal columns stay what they are. -/
theorem sweeps_of_orthogonal {p q : Pair Exact} (hp : p.image.isFinite = true)
    (hq : q.image.isFinite = true) (h : Vec.inner p.image q.image = real 0) (n : Nat) :
    sweeps n [p, q] = [p, q] := by
  have hsweep : sweep [p, q] = [p, q] := by
    simp [sweep, turnAll, turn_of_orthogonal hp hq h]
  induction n with
  | zero => rfl
  | succ n ih => rw [sweeps, hsweep, ih]

/-- The first column of a diagonal matrix beside that of the unit matrix. -/
noncomputable def firstPair (p : ℝ) : Pair Exact :=
  ⟨.ofList [real p, real 0], .ofList [real 1, real 0]⟩

/-- The second column. -/
noncomputable def secondPair (q : ℝ) : Pair Exact :=
  ⟨.ofList [real 0, real q], .ofList [real 0, real 1]⟩

variable {p q : ℝ} {D : Dense Exact} {b : Vec Exact} {g : Fin 2 → ℝ}

theorem pairs_diagonal (hcols : D.cols = 2)
    (hrows : D.rows = [[real p, real 0], [real 0, real q]]) :
    pairs D = [firstPair p, secondPair q] := by
  have hzero : (0.0 : ℝ) = 0 := by norm_num
  have hone : (1.0 : ℝ) = 1 := by norm_num
  simp [pairs, Grid.columns, hcols, hrows, firstPair, secondPair, List.range_succ, Vec.zeros,
    Vec.replicate, Vec.update, Vec.ofList, Entry.zero, Entry.one, Entry.ofReal, hzero, hone]

theorem firstPair_norm (hp : 0 ≤ p) : (firstPair p).image.norm = real p := by
  refine (Vec.norm_numbers (K := Exact) [p, (0 : ℝ)]).trans ?_
  simp [euclidean, Real.sqrt_sq hp]

theorem secondPair_norm (hq : 0 ≤ q) : (secondPair q).image.norm = real q := by
  refine (Vec.norm_numbers (K := Exact) [(0 : ℝ), q]).trans ?_
  simp [euclidean, Real.sqrt_sq hq]

theorem inner_reads {v w : Vec Exact} {x y : Fin 2 → ℝ} (hv : v.Reads x) (hw : w.Reads y) :
    v.inner w = real (x 0 * y 0 + x 1 * y 1) := by
  refine (Vec.Reads.dot hv hw).trans ?_
  rw [Fin.sum_univ_two]
  rfl

/-- A second singular value that is negligible beside the first one does not count. -/
theorem singular_diagonal (hcols : D.cols = 2)
    (hrows : D.rows = [[real p, real 0], [real 0, real q]]) (hq : 0 < q) (hqp : q ≤ p) :
    singular D = if 1 / 4503599627370496 * p < q then
      [(real p, firstPair p), (real q, secondPair q)] else [(real p, firstPair p)] := by
  have hp : 0 < p := hq.trans_le hqp
  have hzero : (0.0 : Exact) = real 0 := by norm_num
  have horthogonal : (firstPair p).image.inner (secondPair q).image = real 0 := by
    refine (inner_reads (x := ![p, 0]) (y := ![0, q]) rfl rfl).trans ?_
    simp
  have hlargest : Scalar.greatest (Scalar.greatest 0.0 (real p)) (real q) = real p := by
    simp [Scalar.greatest, hzero, hp, not_lt.2 hqp]
  have hkept : 1 / 4503599627370496 * p < p := by linarith
  unfold singular
  rw [pairs_diagonal hcols hrows, sweeps_of_orthogonal rfl rfl horthogonal]
  simp only [List.map_cons, List.map_nil, firstPair_norm hp.le, secondPair_norm hq.le,
    List.foldl_cons, List.foldl_nil, hlargest, epsilon_eq, real_mul, List.filter_cons,
    List.filter_nil, real_lt, decide_eq_true hkept, if_true]
  by_cases hcounts : 1 / 4503599627370496 * p < q
  · rw [if_pos hcounts, if_pos (decide_eq_true hcounts)]
  · rw [if_neg hcounts, if_neg (by simpa using hcounts)]

/-- Entries of moderate size are not scaled. -/
theorem solve_moderate (hrows : D.rows = [[real p, real 0], [real 0, real q]]) (hlow : 1e-100 ≤ q)
    (hqp : q ≤ p) (hhigh : p ≤ 1e100) : solve D b = solveModerate D b := by
  have hq : 0 < q := lt_of_lt_of_le (by norm_num) hlow
  have hsize : largestEntry D ∈ [real |p|, real |0|, real |0|, real |q|] := by
    have hentries : largestEntry D =
        (Vec.maximum? (.ofList [real |p|, real |0|, real |0|, real |q|])).getD 0.0 := by
      simp only [largestEntry, Vec.normMax, hrows]
      rfl
    rw [hentries]
    exact Vec.maximum?_mem rfl
  simp only [abs_of_pos (hq.trans_le hqp), abs_of_pos hq, abs_zero, List.mem_cons,
    List.not_mem_nil, or_false] at hsize
  unfold solve
  refine if_pos ?_
  rw [Bool.or_eq_true_iff, Bool.and_eq_true_iff, decide_eq_true_iff, decide_eq_true_iff]
  rcases hsize with h | h | h | h
  · rw [h]
    exact .inr ⟨real_le.2 (hlow.trans hqp), real_le.2 hhigh⟩
  · exact .inl (by rw [h]; norm_num [same_iff])
  · exact .inl (by rw [h]; norm_num [same_iff])
  · rw [h]
    exact .inr ⟨real_le.2 hlow, real_le.2 (hqp.trans hhigh)⟩

/-- The solution begins with zero. -/
theorem start_reads (hcols : D.cols = 2)
    (hrows : D.rows = [[real p, real 0], [real 0, real q]]) :
    (Vec.replicate D.cols (Entry.zeroAs (Dense.isReal D && b.isReal)) : Vec Exact).Reads
      (0 : Fin 2 → ℝ) := by
  have hreal : Dense.isReal D = true := by simp [Dense.isReal, Grid.all, hrows, Entry.isReal]
  have hzero : (Entry.zeroAs (Dense.isReal D && b.isReal) : Exact) = real 0 := by
    rw [hreal, Bool.true_and]
    exact Vec.zeroAs_isReal ℝ b
  rw [hzero, hcols]
  exact Vec.reads_replicate 2 (0 : ℝ)

/-- What a singular value `d` with its columns adds to the solution. -/
theorem share_reads {v w : Vec Exact} {x d : ℝ} {y : Fin 2 → ℝ} (hd : d ≠ 0)
    (hv : v.inner b = real (d * x)) (hw : w.Reads y) :
    (Vec.scale (v.inner b / Entry.ofReal (real d * real d)) w).Reads ((x / d) • y) := by
  have hscale : (real (d * x) / Entry.ofReal (real d * real d) : Exact) = real (x / d) := by
    change real (d * x) / real (d * d) = _
    rw [real_div (mul_ne_zero hd hd), mul_div_mul_left _ _ hd]
  rw [hv, hscale]
  exact hw.map (g := (x / d * ·)) fun _ => real_mul

/-- The least squares solution with a diagonal matrix; a second entry that is negligible beside the
first one counts as zero. -/
theorem solve_diagonal (hcols : D.cols = 2)
    (hrows : D.rows = [[real p, real 0], [real 0, real q]]) (hlow : 1e-100 ≤ q) (hqp : q ≤ p)
    (hhigh : p ≤ 1e100) (hb : b.Reads g) :
    (solve D b).Reads ![g 0 / p, if 1 / 4503599627370496 * p < q then g 1 / q else 0] := by
  have hq : 0 < q := lt_of_lt_of_le (by norm_num) hlow
  have hp : 0 < p := hq.trans_le hqp
  have hsquare : D.cols ≤ D.height := by simp [Grid.height, hcols, hrows]
  have hstart := start_reads (b := b) hcols hrows
  have hfirst : (firstPair p).image.inner b = real (p * g 0) := by
    refine (inner_reads (x := ![p, 0]) rfl hb).trans ?_
    simp
  have hsecond : (secondPair q).image.inner b = real (q * g 1) := by
    refine (inner_reads (x := ![0, q]) rfl hb).trans ?_
    simp
  have hacross := share_reads (w := (firstPair p).source) (y := ![1, 0]) hp.ne' hfirst rfl
  have hup := share_reads (w := (secondPair q).source) (y := ![0, 1]) hq.ne' hsecond rfl
  rw [solve_moderate hrows hlow hqp hhigh, solveModerate, if_pos hsquare,
    singular_diagonal hcols hrows hq hqp]
  split
  · have hsum : 0 + (g 0 / p) • ![(1 : ℝ), 0] + (g 1 / q) • ![0, 1] = ![g 0 / p, g 1 / q] := by
      simp
    rw [← hsum]
    exact (hstart.add hacross).add hup
  · have hsum : 0 + (g 0 / p) • ![(1 : ℝ), 0] = ![g 0 / p, 0] := by simp
    rw [← hsum]
    exact hstart.add hacross

end LeastSquares

namespace LinearSystem

/-- The least squares method answers zero in the place of an entry that is negligible. -/
theorem answers_diagonal {σ : Type} {p q : ℝ} (hlow : 1e-100 ≤ q) (hqp : q ≤ p) (hhigh : p ≤ 1e100)
    (g : Fin 2 → ℝ) (F : Vec Exact → Work σ Exact Exact (Vec Exact)) :
    Answers Backend.standard F .lstsq !![p, 0; 0, q] g
      ![g 0 / p, if 1 / 4503599627370496 * p < q then g 1 / q else 0] := by
  intro D b w hD hb hmethod
  have hrows : D.rows = [[real p, real 0], [real 0, real q]] := by
    rw [hD.rows]
    simp [Vec.numbers, Vec.toList, Vec.ofList, List.ofFn_succ, number]
  have hreads := LeastSquares.solve_diagonal hD.cols hrows hlow hqp hhigh hb
  have hchosen : ∀ A : Matrix Exact Exact,
      w.system.method.getD (SolveMethod.forMatrix A) = .lstsq := by
    intro A
    cases hM : w.system.method with
    | none =>
      rw [hM] at hmethod
      cases hmethod
    | some M => rwa [hM] at hmethod
  have hsize : ¬b.size ≠ D.height := by rw [hb.size, hD.height, not_not]
  rw [factorize, ends_bind, ends_get, ends_bind, change, ends_modify, hchosen]
  simp only [ends_bind, concrete, ends_ofFault_ok rfl, change, ends_modify]
  refine (solve_answers rfl rfl ?_ hreads.isFinite).mono (fun x _ hx => by rw [hx]; exact hreads)
    (fun _ _ h => h)
  simp only [solveBy, solveLeastSquares, if_neg hsize, hD.isFinite, hb.isFinite, Bool.and_self,
    Bool.not_true, Bool.false_eq_true, if_false]
  rfl

end LinearSystem

end RootFinding
