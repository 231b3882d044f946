import Mathlib.LinearAlgebra.Matrix.Determinant.Basic
import RootFinding.Proofs.Elimination

/-!
# Pivots

The pivots of elimination with row exchanges over the numbers of a field. Their product is the
determinant up to its sign, so a pivot is zero exactly for the singular matrices.

* `TriangularFactors.pivotPlace_largest`: the chosen row starts with a number of largest modulus.
* `TriangularFactors.ofRows_level`: one level of the factors, whether its pivot is zero or not.
* `TriangularFactors.exists_pivots`: the pivots are numbers, with the determinant as their product.
-/

open scoped Matrix

namespace RootFinding

open Exact ExactEntry

namespace TriangularFactors

/-! ## The determinant of a list of rows -/

section Determinants

variable {𝕜 : Type} [Field 𝕜] {n : Nat}

/-- The first `n` entries of the first `n` rows as a matrix. -/
def square (n : Nat) (rows : List (List 𝕜)) : FieldMatrix 𝕜 n n :=
  Matrix.of fun i j => (rows[(i : Nat)]?.bind fun r => r[(j : Nat)]?).getD 0

theorem square_ofFn (N : FieldMatrix 𝕜 n n) :
    square n (List.ofFn fun i => List.ofFn (N i)) = N := by
  ext i j
  simp [square]

theorem square_apply (rows : List (List 𝕜)) (i j : Fin n) :
    square n rows i j = (rows[(i : Nat)]?.bind fun r => r[(j : Nat)]?).getD 0 :=
  rfl

/-- An exchange of rows changes no more than the sign of the determinant. -/
theorem det_exchange {rows : List (List 𝕜)} (h : rows.length = n + 1) (k : Nat) :
    (square (n + 1) (exchange rows k)).det = (square (n + 1) rows).det ∨
      (square (n + 1) (exchange rows k)).det = -(square (n + 1) rows).det := by
  cases k with
  | zero => exact .inl (by rw [exchange_zero])
  | succ k =>
    obtain ⟨x, rest, rfl⟩ := List.exists_cons_of_length_eq_add_one h
    rw [exchange_succ]
    cases hrest : rest[k]? with
    | none => exact .inl rfl
    | some y =>
      refine .inr ?_
      obtain ⟨hk, rfl⟩ := List.getElem?_eq_some_iff.1 hrest
      have hlength : rest.length = n := Nat.succ.inj h
      have hplace : k + 1 < n + 1 := by omega
      have hswap : square (n + 1) (rest[k] :: rest.set k x) =
          (square (n + 1) (x :: rest)).submatrix (Equiv.swap 0 ⟨k + 1, hplace⟩) id := by
        have hrow : ∀ i : Fin (n + 1), (rest[k] :: rest.set k x)[(i : Nat)]? =
            (x :: rest)[(Equiv.swap 0 ⟨k + 1, hplace⟩ i : Fin (n + 1)).val]? := by
          intro i
          rcases eq_or_ne i 0 with rfl | hzero
          · simp [Equiv.swap_apply_left]
          rcases eq_or_ne i ⟨k + 1, hplace⟩ with rfl | hother
          · simp [Equiv.swap_apply_right, hk]
          rw [Equiv.swap_apply_of_ne_of_ne hzero hother]
          obtain ⟨j, rfl⟩ := Fin.exists_succ_eq.2 hzero
          have hne : k ≠ (j : Nat) := fun heq => hother (Fin.ext (by simp [heq]))
          simp [hne]
        ext i j
        rw [square_apply, hrow]
        rfl
      rw [Option.elim_some, hswap, Matrix.det_permute, Equiv.Perm.sign_swap (by simp [Fin.ext_iff])]
      simp

/-- The rows below the first one are reduced; then the determinant is a product. -/
theorem det_reduce {p : 𝕜} {right : List 𝕜} {others : List (List 𝕜)} (hright : right.length = n)
    (hothers : Rows n (n + 1) others) (hzero : p = 0 → ∀ r ∈ others, r.headD 0 = 0) :
    (square (n + 1) ((p :: right) :: others)).det = p * (square n (reduce p right others)).det := by
  -- each row less its multiple of the first one
  let c : Fin (n + 1) → 𝕜 := Fin.cons 0 fun i => (others[(i : Nat)]?.getD []).headD 0 / p
  let B : FieldMatrix 𝕜 (n + 1) (n + 1) := fun i j =>
    square (n + 1) ((p :: right) :: others) i j - c i * square (n + 1) ((p :: right) :: others) 0 j
  have hdet : (square (n + 1) ((p :: right) :: others)).det = B.det :=
    Matrix.det_eq_of_forall_row_eq_smul_add_const c 0 rfl fun i j => by
      simp [B, c]
  have hfirst : B 0 0 = p := by simp [B, c, square_apply]
  have hbelow : ∀ i : Fin n, B i.succ 0 = 0 := by
    intro i
    have hi : (i : Nat) < others.length := by rw [hothers.height]; exact i.isLt
    obtain ⟨q, r, hr⟩ := List.exists_cons_of_length_eq_add_one
      (hothers.width _ (List.getElem_mem hi))
    have hq : p = 0 → q = 0 := fun h => by simpa [hr] using hzero h _ (List.getElem_mem hi)
    have hvalue : B i.succ 0 = q - q / p * p := by
      simp [B, c, square_apply, hi, hr]
    rw [hvalue]
    rcases eq_or_ne p 0 with h | h
    · simp [hq h]
    · rw [div_mul_cancel₀ _ h, sub_self]
  have hrest : B.submatrix (Fin.succAbove 0) Fin.succ = square n (reduce p right others) := by
    ext i j
    have hi : (i : Nat) < others.length := by rw [hothers.height]; exact i.isLt
    obtain ⟨q, r, hr⟩ := List.exists_cons_of_length_eq_add_one
      (hothers.width _ (List.getElem_mem hi))
    have hwidth : r.length = n := by
      have hrow := hothers.width _ (List.getElem_mem hi)
      rw [hr] at hrow
      exact Nat.succ.inj hrow
    rw [Matrix.submatrix_apply, Fin.succAbove_zero]
    simp [B, c, square_apply, reduce, hi, hr, hwidth, hright]
  rw [hdet, Matrix.det_succ_column_zero, Fin.sum_univ_succ, hrest]
  simp [hfirst, hbelow]

end Determinants

/-! ## The choice of a row -/

section Choices

variable {𝕜 K : Type} [RCLike 𝕜] [Entry Exact K] [ExactEntry 𝕜 K]

/-- The modulus that was found so far is that of a number in the column, and no number before it is
larger. -/
inductive Leading (column : List (𝕜 × Nat)) : List (𝕜 × Nat) → Option (Exact × Nat) → Prop
  | start : Leading column [] none
  | found {seen : List (𝕜 × Nat)} (x : 𝕜) (k : Nat) (mem : (x, k) ∈ column)
    (largest : ∀ y ∈ seen, ‖y.1‖ ≤ ‖x‖) : Leading column seen (some (real ‖x‖, k))

/-- One step of the search for the largest modulus. -/
noncomputable def lead (best : Option (Exact × Nat)) (x : K × Nat) : Option (Exact × Nat) :=
  match best with
  | none => some (Entry.abs x.1, x.2)
  | some (a, k) => if a < Entry.abs x.1 then some (Entry.abs x.1, x.2) else some (a, k)

theorem pivotPlace_eq (column : List K) :
    pivotPlace column = (column.zipIdx.foldl lead none).elim 0 (·.2) := by
  unfold pivotPlace
  congr 2
  funext best x
  cases best <;> rfl

theorem Leading.lead {column seen : List (𝕜 × Nat)} {best : Option (Exact × Nat)}
    (h : Leading column seen best) {y : 𝕜 × Nat} (hy : y ∈ column) :
    Leading column (seen ++ [y]) (lead best ((number y.1 : K), y.2)) := by
  cases h with
  | start =>
    rw [TriangularFactors.lead, ExactEntry.abs]
    exact .found y.1 y.2 hy (by simp)
  | found x k mem largest =>
    simp only [TriangularFactors.lead, ExactEntry.abs, real_lt]
    split
    next hlt =>
      refine .found y.1 y.2 hy fun z hz => ?_
      rcases List.mem_append.1 hz with hz | hz
      · exact (largest z hz).trans hlt.le
      · rw [List.mem_singleton.1 hz]
    next hlt =>
      refine .found x k mem fun z hz => ?_
      rcases List.mem_append.1 hz with hz | hz
      · exact largest z hz
      · rw [List.mem_singleton.1 hz]
        exact not_lt.1 hlt

theorem Leading.foldl {column seen rest : List (𝕜 × Nat)} {best : Option (Exact × Nat)}
    (h : Leading column seen best) (hrest : rest ⊆ column) :
    Leading column (seen ++ rest)
      ((rest.map fun y => ((number y.1 : K), y.2)).foldl TriangularFactors.lead best) := by
  induction rest generalizing seen best with
  | nil => simpa using h
  | cons y rest ih =>
    obtain ⟨hy, hrest⟩ := List.cons_subset.1 hrest
    have hall := ih (h.lead (K := K) hy) hrest
    rwa [List.append_assoc] at hall

/-- The chosen place is that of a number of largest modulus. -/
theorem pivotPlace_largest {xs : List 𝕜} (hxs : xs ≠ []) :
    ∃ x, xs[pivotPlace (xs.map number : List K)]? = some x ∧ ∀ y ∈ xs, ‖y‖ ≤ ‖x‖ := by
  have hpairs : (xs.map number : List K).zipIdx = xs.zipIdx.map fun y => (number y.1, y.2) :=
    List.zipIdx_map
  have hstart : Leading xs.zipIdx [] none := .start
  have h := hstart.foldl (K := K) (List.Subset.refl _)
  rw [List.nil_append, ← hpairs] at h
  rw [pivotPlace_eq]
  generalize (xs.map number : List K).zipIdx.foldl lead none = best at h
  generalize hseen : xs.zipIdx = seen at h
  cases h with
  | start => exact (hxs (by simpa using hseen)).elim
  | found x k mem largest =>
    rw [← hseen] at mem
    refine ⟨x, List.mk_mem_zipIdx_iff_getElem?.1 mem, fun y hy => ?_⟩
    obtain ⟨i, hi, rfl⟩ := List.mem_iff_getElem.1 hy
    refine largest (xs[i], i) ?_
    rw [← hseen]
    exact List.mk_mem_zipIdx_iff_getElem?.2 (List.getElem?_eq_getElem hi)

/-- The chosen element comes first. -/
theorem exchange_chosen {α : Type} {xs : List α} {k : Nat} {x : α} (h : xs[k]? = some x) :
    ∃ rest, exchange xs k = x :: rest := by
  cases xs with
  | nil => cases h
  | cons y rest =>
    cases k with
    | zero =>
      rw [exchange_zero]
      cases h
      exact ⟨rest, rfl⟩
    | succ k =>
      rw [List.getElem?_cons_succ] at h
      rw [exchange_succ, h]
      exact ⟨_, rfl⟩

/-- If the chosen row starts with zero, all rows do. -/
theorem heads_zero {rows : List (List 𝕜)} {k : Nat} {p : 𝕜} {right : List 𝕜}
    {others : List (List 𝕜)}
    (hk : k = pivotPlace ((numberRows rows : List (List K)).map (·.headD Entry.zero)))
    (hchosen : exchange rows k = (p :: right) :: others) (hp : p = 0) :
    ∀ r ∈ others, r.headD 0 = 0 := by
  have hheads : (numberRows rows : List (List K)).map (·.headD Entry.zero) =
      (rows.map (·.headD 0)).map number := by
    simp only [numberRows, List.map_map]
    exact List.map_congr_left fun r _ => headD_number r
  rw [hheads] at hk
  intro r hr
  have hmem : r ∈ rows := mem_of_mem_exchange (hchosen ▸ List.mem_cons_of_mem _ hr)
  have hnonempty : rows.map (·.headD 0) ≠ [] := by
    simpa using List.ne_nil_of_mem hmem
  obtain ⟨x, hx, hlargest⟩ := pivotPlace_largest (K := K) hnonempty
  rw [← hk, List.getElem?_map, Option.map_eq_some_iff] at hx
  obtain ⟨row, hrow, rfl⟩ := hx
  obtain ⟨rest, hrest⟩ := exchange_chosen hrow
  rw [hchosen] at hrest
  obtain rfl : p :: right = row := (List.cons.inj hrest).1
  have hsmall := hlargest _ (List.mem_map_of_mem hmem)
  rw [List.headD_cons, hp, norm_zero] at hsmall
  exact norm_le_zero_iff.1 hsmall

/-- One level of the factors of rows of numbers. -/
theorem ofRows_level {n k : Nat} {rows : List (List 𝕜)} {p : 𝕜} {right : List 𝕜}
    {others : List (List 𝕜)}
    (hk : k = pivotPlace ((numberRows rows : List (List K)).map (·.headD Entry.zero)))
    (hchosen : exchange rows k = (p :: right) :: others) :
    ofRows (n + 1) (numberRows rows : List (List K)) =
      .level k (number p) (right.map number) (others.map fun r => number (r.headD 0 / p))
        (ofRows n (numberRows (reduce p right others))) := by
  have hexchange : exchange (numberRows rows : List (List K)) k =
      numberRows ((p :: right) :: others) := by
    rw [numberRows, exchange_map, hchosen]
    rfl
  have hmultipliers : (numberRows others).map (fun r : List K =>
      if Entry.isZero (number p : K) then r.headD Entry.zero
      else r.headD Entry.zero / number p) = others.map fun r => number (r.headD 0 / p) := by
    rcases eq_or_ne p 0 with hp | hp
    · have hpivot : Entry.isZero (number p : K) = true := (isZero_iff _).2 (congrArg number hp)
      simp only [numberRows, List.map_map, if_pos hpivot]
      refine List.map_congr_left fun r hr => ?_
      rw [Function.comp_apply, headD_number, heads_zero hk hchosen hp r hr, zero_div]
    · exact multipliers_number hp others
  rw [← left_number, ← hmultipliers]
  simp only [ofRows, ← hk, hexchange]
  rfl

/-- The pivots of rows of numbers are numbers, and their product is the determinant up to its
sign. -/
theorem exists_pivots (n : Nat) {rows : List (List 𝕜)} (hrows : Rows n n rows) :
    ∃ ps : List 𝕜, ps.length = n ∧
      (ofRows n (numberRows rows : List (List K))).pivots = ps.map number ∧
      ‖ps.prod‖ = ‖(square n rows).det‖ := by
  induction n generalizing rows with
  | zero => exact ⟨[], rfl, rfl, by simp⟩
  | succ n ih =>
    obtain ⟨k, hk⟩ : ∃ k, k = pivotPlace
        ((numberRows rows : List (List K)).map (·.headD Entry.zero)) := ⟨_, rfl⟩
    obtain ⟨p, right, others, htop, hright, hothers⟩ := hrows.exchange_cons k
    obtain ⟨ps, hlength, hpivots, hprod⟩ := ih (hothers.reduce hright p)
    refine ⟨p :: ps, by rw [List.length_cons, hlength], ?_, ?_⟩
    · rw [ofRows_level hk htop, pivots, hpivots, List.map_cons]
    · have hreduce := det_reduce hright hothers fun hp => heads_zero hk htop hp
      have hdet : ‖(square (n + 1) (exchange rows k)).det‖ = ‖(square (n + 1) rows).det‖ := by
        rcases det_exchange hrows.height k with h | h
        · rw [h]
        · rw [h, norm_neg]
      rw [← hdet, htop, hreduce, List.prod_cons, norm_mul, norm_mul, hprod]

end Choices

/-- The pivots of a diagonal matrix of two rows. -/
theorem pivots_diagonal {a : ℝ} (ha : a ≠ 0) (d : ℝ)
    (rect : ∀ r ∈ [[real a, real 0], [real 0, real d]], r.length = 2) :
    (ofDense (R := Exact) ⟨2, [[real a, real 0], [real 0, real d]], rect⟩).pivots =
      [real a, real d] := by
  have hsingle (x : Exact) : pivotPlace (R := Exact) [x] = 0 := rfl
  have hlarger : ¬Entry.abs (real a) < (Entry.abs (real 0) : Exact) := by
    change ¬real |a| < real |0|
    rw [real_lt, abs_zero]
    exact not_lt.2 (abs_nonneg a)
  have hplace : pivotPlace (R := Exact) [real a, real 0] = 0 := by
    simp only [pivotPlace, List.zipIdx_cons, List.zipIdx_nil, List.foldl_cons, List.foldl_nil,
      if_neg hlarger, Option.elim]
  have hnonzero : ¬Entry.isZero (real a) = true := by
    rwa [Exact.isZero_iff, Exact.real.injEq]
  simp only [ofDense, ofRows, List.map_cons, List.map_nil, List.headD_cons, hplace, exchange,
    List.zipWith_cons_cons, List.zipWith_nil_left, List.tail_cons, hsingle,
    List.getElem?_cons_zero, if_true, pivots]
  simp only [hnonzero, Bool.false_eq_true, if_false, Exact.real_div ha, real_mul, real_sub,
    mul_zero, sub_zero]

end TriangularFactors

end RootFinding
