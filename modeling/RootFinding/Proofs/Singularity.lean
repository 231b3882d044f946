import RootFinding.Proofs.Handles
import RootFinding.Proofs.Pivots

/-!
# Singular matrices of the direct methods

What the two direct methods refuse, over the numbers of a field. The sparse one refuses a matrix
with a zero pivot, which is a singular one. The dense one also refuses a matrix with a pivot that is
negligible beside another one, whatever its determinant is.

* `Backend.Pivots`: what is asked of a backend. `Backend.standard_pivots` proves it of this library's
  own over the real numbers.
* `Dense.Uneven B D`: one pivot of the dense factors is negligible beside another one.
* `Backend.Pivots.dense_iff`, `Backend.Pivots.sparse_iff`: what the methods refuse.
* `Backend.Pivots.solve_eq`: where both take a matrix they answer the same.
-/

open scoped Matrix

namespace RootFinding

open Action Exact ExactEntry

variable {σ 𝕜 K : Type} [RCLike 𝕜] [Entry Exact K] [ExactEntry 𝕜 K] {n : Nat}
  {B : Backend σ Exact K} {D : Dense K} {N : FieldMatrix 𝕜 n n} {b : Vec K} {g : Fin n → 𝕜}

variable (𝕜) in
/-- Both direct methods of a backend eliminate exactly and with exchanges: the product of the pivots
is the determinant up to its sign, and the sparse method fails on a zero pivot only. They do not
make finite what is not. -/
structure Backend.Pivots (B : Backend σ Exact K) : Prop extends B.Eliminates 𝕜 where
  dense {n : Nat} {D : Dense K} {N : FieldMatrix 𝕜 n n} : D.Reads N →
    ∃ ps : List 𝕜, ps.length = n ∧ ‖ps.prod‖ = ‖N.det‖ ∧ B.pivots D = ps.map fun p => real ‖p‖
  sparse {n : Nat} {D : Dense K} {N : FieldMatrix 𝕜 n n} : D.Reads N →
    ∃ ps : List 𝕜, ps.length = n ∧ ‖ps.prod‖ = ‖N.det‖ ∧ (B.sparseSingular D = true ↔ 0 ∈ ps)
  finite {n : Nat} {D : Dense K} {N : FieldMatrix 𝕜 n n} {b : Vec K} : D.Reads N → N.det ≠ 0 →
    b.size = n → (B.luSolve D b).isFinite = true ∨ (B.sparseSolve D b).isFinite = true →
      b.isFinite = true

/-- A pivot of the dense factors is negligible beside another one, by the precision of the scalars
and the number of rows. -/
def Dense.Uneven (B : Backend σ Exact K) (D : Dense K) : Prop :=
  ∃ p q : ℝ, real p ∈ B.pivots D ∧ real q ∈ B.pivots D ∧
    p ≤ D.height * (1 / (4503599627370496 : ℕ)) * q

/-! ## What is refused -/

/-- Pivots are refused if one of them is negligible beside another one. -/
theorem singularDetails_isSome_iff {ps : List ℝ} (hps : ps ≠ []) (height : Nat) :
    (singularDetails? (ps.map real) height).isSome = true ↔
      ∃ p ∈ ps, ∃ q ∈ ps, p ≤ height * (1 / (4503599627370496 : ℕ)) * q := by
  obtain ⟨m, hm, hlargest, hmaximum⟩ : ∃ m ∈ ps, (∀ p ∈ ps, p ≤ m) ∧
      Vec.maximum? (.ofList (ps.map real)) = some (real m) := by
    obtain ⟨p, rest, rfl⟩ := List.exists_cons_of_ne_nil hps
    obtain ⟨x, hx⟩ : ∃ x, Vec.maximum? (.ofList ((p :: rest).map real)) = some x := ⟨_, rfl⟩
    obtain ⟨m, hm, rfl⟩ := List.mem_map.1 (Vec.maximum?_mem hx)
    refine ⟨m, hm, fun q hq => ?_, hx⟩
    exact real_le.1 (le_of_maximum?_le hx (real_le.2 le_rfl) _ (List.mem_map_of_mem hq))
  have hscale : (0 : ℝ) ≤ height * (1 / (4503599627370496 : ℕ)) := by positivity
  have htiny : Scalar.ofNat height * Scalar.epsilon * real m =
      real (height * (1 / (4503599627370496 : ℕ)) * m) := by
    rw [epsilon_eq]
    change real (height * (1 / 4503599627370496) * m) = _
    norm_num
  have hdecimal : (0.0 : ℝ) = 0 := by norm_num
  have hbad : (singularDetails? (ps.map real) height).isSome = true ↔
      m = 0 ∨ ∃ p ∈ ps, p ≤ height * (1 / (4503599627370496 : ℕ)) * m := by
    unfold singularDetails?
    simp only [hmaximum, Option.getD_some, htiny]
    split
    next h => simpa [same_iff, ofScientific_eq, hdecimal] using h
    next h => simpa [same_iff, ofScientific_eq, hdecimal] using h
  rw [hbad]
  constructor
  · rintro (hzero | ⟨p, hp, hle⟩)
    · exact ⟨m, hm, m, hm, by rw [hzero, mul_zero]⟩
    · exact ⟨p, hp, m, hm, hle⟩
  · rintro ⟨p, hp, q, hq, hle⟩
    exact .inr ⟨p, hp, hle.trans (mul_le_mul_of_nonneg_left (hlargest q hq) hscale)⟩

namespace Backend.Pivots

variable (hB : B.Pivots 𝕜)

include hB

theorem sparse_iff (hD : D.Reads N) : B.sparseSingular D = true ↔ N.det = 0 := by
  obtain ⟨ps, -, hprod, hsingular⟩ := hB.sparse hD
  rw [hsingular, ← List.prod_eq_zero_iff, ← norm_eq_zero, hprod, norm_eq_zero]

theorem dense_iff (hn : 0 < n) (hD : D.Reads N) :
    singularDetails? (B.pivots D) D.height = none ↔ ¬D.Uneven B := by
  obtain ⟨ps, hlength, -, hpivots⟩ := hB.dense hD
  have hmoduli : B.pivots D = (ps.map fun p => ‖p‖).map real := by
    rw [hpivots, List.map_map]
    rfl
  have hnonempty : ps.map (fun p => ‖p‖) ≠ [] := by
    simpa using List.ne_nil_of_length_pos (hlength ▸ hn)
  have hmem : ∀ p : ℝ, real p ∈ (ps.map fun p => ‖p‖).map real ↔ p ∈ ps.map fun p => ‖p‖ :=
    fun p => List.mem_map_of_injective fun _ _ h => Exact.real.inj h
  rw [← not_iff_not, not_not, Dense.Uneven, ← ne_eq, ← Option.isSome_iff_ne_none]
  simp only [hmoduli, hmem, singularDetails_isSome_iff hnonempty]
  constructor
  · rintro ⟨p, hp, q, hq, hle⟩
    exact ⟨p, q, hp, hq, hle⟩
  · rintro ⟨p, q, hp, hq, hle⟩
    exact ⟨p, hp, q, hq, hle⟩

/-- A singular matrix has a zero pivot, which is negligible beside any other one. -/
theorem uneven_of_det (hD : D.Reads N) (hdet : N.det = 0) : D.Uneven B := by
  obtain ⟨ps, -, hprod, hpivots⟩ := hB.dense hD
  have hzero : (0 : 𝕜) ∈ ps := by
    rw [← List.prod_eq_zero_iff, ← norm_eq_zero, hprod, hdet, norm_zero]
  have hmem : real 0 ∈ B.pivots D := by
    rw [hpivots, ← norm_zero (E := 𝕜)]
    exact List.mem_map_of_mem hzero
  exact ⟨0, 0, hmem, hmem, by rw [mul_zero]⟩

/-- Where both methods take a matrix, they answer the same finite vector, or neither answers a finite
one. -/
theorem solve_eq (hn : 0 < n) (hD : D.Reads N) (heven : ¬D.Uneven B) (hb : b.size = n) :
    B.sparseSolve D b = B.luSolve D b ∨
      (B.luSolve D b).isFinite = false ∧ (B.sparseSolve D b).isFinite = false := by
  have hdet : N.det ≠ 0 := fun h => heven (hB.uneven_of_det hD h)
  cases hfinite : b.isFinite with
  | true =>
    obtain ⟨g, hg⟩ : ∃ g : Fin n → 𝕜, b.Reads g := Vec.reads_of_isFinite hfinite hb
    obtain ⟨y, hy, hsolved⟩ := hB.lu hD hg ((hB.dense_iff hn hD).2 heven)
    obtain ⟨z, hz, hsolved'⟩ := hB.splu hD hg
      (Bool.eq_false_iff.2 fun h => hdet ((hB.sparse_iff hD).1 h))
    have hunique : Function.Injective N.mulVec :=
      Matrix.mulVec_injective_of_isUnit
        ((Matrix.isUnit_iff_isUnit_det N).2 (isUnit_iff_ne_zero.2 hdet))
    rw [hunique (hsolved'.trans hsolved.symm)] at hz
    exact .inl (hz.trans hy.symm)
  | false =>
    have hnot := fun h => Bool.eq_false_iff.1 hfinite (hB.finite hD hdet hb h)
    exact .inr ⟨Bool.eq_false_iff.2 fun h => hnot (.inl h), Bool.eq_false_iff.2 fun h => hnot (.inr h)⟩

end Backend.Pivots

/-! ## The routines of this library -/

namespace TriangularFactors

variable (hdiv : ∀ (x : K) {p : 𝕜}, p ≠ 0 → Entry.isFinite (x / number p) = true →
  Entry.isFinite x = true)

include 𝕜 in
theorem isFinite_of_foldl_sub {y : K} {xs : List K}
    (h : Entry.isFinite (xs.foldl (· - ·) y) = true) : Entry.isFinite y = true := by
  induction xs generalizing y with
  | nil => exact h
  | cons x xs ih => exact (isFinite_sub (ih h)).1

include hdiv

/-- Factors without a zero pivot answer finite entries for finite right-hand sides only. -/
theorem isFinite_of_solve (n : Nat) {rows : List (List 𝕜)} {b : List K} (hrows : Rows n n rows)
    (hb : b.length = n)
    (hpivots : ∀ p ∈ (ofRows n (numberRows rows : List (List K))).pivots, p ≠ number 0)
    (h : ∀ x ∈ (ofRows n (numberRows rows : List (List K))).solve b, Entry.isFinite x = true) :
    ∀ y ∈ b, Entry.isFinite y = true := by
  induction n generalizing rows b with
  | zero =>
    obtain rfl := List.length_eq_zero_iff.1 hb
    simp
  | succ n ih =>
    obtain ⟨k, hk⟩ : ∃ k, k = pivotPlace
        ((numberRows rows : List (List K)).map (·.headD Entry.zero)) := ⟨_, rfl⟩
    obtain ⟨p, right, others, htop, hright, hothers⟩ := hrows.exchange_cons k
    obtain ⟨hp, hfactors⟩ := ofRows_numbers hk htop hpivots
    rw [hfactors] at hpivots h
    obtain ⟨y, ys, hy⟩ :=
      List.exists_cons_of_length_eq_add_one ((length_exchange b k).trans hb)
    have hys : ys.length = n := by
      have hside := (length_exchange b k).trans hb
      rw [hy] at hside
      exact Nat.succ.inj hside
    simp only [solve, hy] at h
    have hrest := ih (hothers.reduce hright p) (by simp [hys, hothers.height])
      (fun q hq => hpivots q (List.mem_cons_of_mem _ hq))
      fun x hx => h x (List.mem_cons_of_mem _ hx)
    have hchosen : ∀ x ∈ y :: ys, Entry.isFinite x = true := by
      intro x hx
      rcases List.mem_cons.1 hx with rfl | hx
      · exact isFinite_of_foldl_sub (hdiv _ hp (h _ List.mem_cons_self))
      · obtain ⟨i, hi, rfl⟩ := List.mem_iff_getElem.1 hx
        have hi' : i < others.length := by rw [hothers.height, ← hys]; exact hi
        have hreduced : ys[i] - number (others[i].headD 0 / p) * y ∈
            List.zipWith (fun m x => x - m * y)
              (others.map fun r => number (r.headD 0 / p)) ys :=
          List.mem_iff_getElem.2 ⟨i, by simp [hi, hi'], by simp⟩
        exact (isFinite_sub (hrest _ hreduced)).1
    intro x hx
    exact hchosen x (hy ▸ mem_exchange hx k)

end TriangularFactors

theorem Dense.Reads.numberRows (hD : D.Reads N) :
    D.rows = TriangularFactors.numberRows (List.ofFn fun i => List.ofFn (N i)) := by
  rw [hD.rows, TriangularFactors.numberRows, List.map_ofFn]
  rfl

/-- The factors of a matrix of numbers: the product of the pivots is the determinant up to its
sign. -/
theorem Dense.Reads.exists_pivots (hD : D.Reads N) :
    ∃ ps : List 𝕜, ps.length = n ∧ ‖ps.prod‖ = ‖N.det‖ ∧
      (TriangularFactors.ofDense (R := Exact) D).pivots = ps.map number := by
  have hrows : TriangularFactors.Rows n n (List.ofFn fun i => List.ofFn (N i)) :=
    ⟨by simp, by simp⟩
  obtain ⟨ps, hlength, hpivots, hprod⟩ := TriangularFactors.exists_pivots (K := K) n hrows
  rw [TriangularFactors.square_ofFn] at hprod
  refine ⟨ps, hlength, hprod, ?_⟩
  rw [TriangularFactors.ofDense, hD.cols, hD.numberRows, hpivots]

/-- A quotient by a number is finite only if the dividend is. -/
theorem isFinite_of_div (x : Exact) (p : ℝ)
    (h : Entry.isFinite (x / (number p : Exact)) = true) : Entry.isFinite x = true := by
  have hfinite (y : Exact) : Entry.isFinite y = y.isReal := Bool.and_true _
  rw [hfinite] at h ⊢
  change (Exact.div x (real p)).isReal = true at h
  cases x with
  | real x => rfl
  | posInf | negInf => by_cases hsign : p < 0 <;> simp [Exact.div, hsign, isReal] at h
  | undefined => exact h

theorem Backend.standard_pivots : (Backend.standard : Backend σ Exact Exact).Pivots ℝ where
  toEliminates := Backend.standard_eliminates ℝ
  dense {n D N} hD := by
    obtain ⟨ps, hlength, hprod, hpivots⟩ := hD.exists_pivots
    refine ⟨ps, hlength, hprod, ?_⟩
    simp only [Backend.standard, hpivots, List.map_map]
    rfl
  sparse {n D N} hD := by
    obtain ⟨ps, hlength, hprod, hpivots⟩ := hD.exists_pivots
    refine ⟨ps, hlength, hprod, ?_⟩
    simp only [Backend.standard, hpivots, List.any_map, List.any_eq_true]
    constructor
    · rintro ⟨p, hp, hzero⟩
      rwa [← number_injective ((isZero_iff _).1 hzero)]
    · intro hzero
      exact ⟨0, hzero, (isZero_iff _).2 rfl⟩
  finite {n D N b} hD hdet hb h := by
    obtain ⟨ps, -, hprod, hpivots⟩ := hD.exists_pivots
    have hnonzero : ∀ p ∈ (TriangularFactors.ofDense (R := Exact) D).pivots, p ≠ number 0 := by
      rw [hpivots]
      rintro - hp rfl
      obtain ⟨p, hp, hzero⟩ := List.mem_map.1 hp
      rw [number_injective hzero] at hp
      refine hdet (norm_eq_zero.1 ?_)
      rw [← hprod, List.prod_eq_zero hp, norm_zero]
    have hentries : ∀ x ∈ (TriangularFactors.ofDense (R := Exact) D).solve b.toList,
        Entry.isFinite x = true := List.all_eq_true.1 (h.elim id id)
    rw [TriangularFactors.ofDense, hD.cols, hD.numberRows] at hnonzero hentries
    exact List.all_eq_true.2 (TriangularFactors.isFinite_of_solve (fun x p _ => isFinite_of_div x p) n
      ⟨by simp, by simp⟩ hb hnonzero hentries)

end RootFinding
