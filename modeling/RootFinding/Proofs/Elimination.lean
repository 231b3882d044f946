import RootFinding.Proofs.Factorization
import RootFinding.Proofs.NormalEquations
import RootFinding.Proofs.Routines

/-!
# Elimination is exact

Over the numbers of a field the triangular factors of a square matrix without a zero pivot solve its
systems.

* `TriangularFactors.solve_numbers`: the solution of the factors satisfies every row.
* `Backend.Eliminates`, over real numbers `Backend.Direct`: the direct methods of a backend solve
  the systems that they accept. `Backend.standard_eliminates` proves it of this library's own.
* `LinearSystem.eliminates`: what a linear system with a direct method answers.
-/

open scoped Matrix

namespace RootFinding

open Exact ExactEntry

namespace TriangularFactors

/-! ## Exchanges -/

section Exchanges

variable {α β : Type}

theorem exchange_zero (xs : List α) : exchange xs 0 = xs := by
  cases xs <;> rfl

theorem exchange_succ (x : α) (rest : List α) (k : Nat) :
    exchange (x :: rest) (k + 1) = (rest[k]?).elim (x :: rest) fun y => y :: rest.set k x := by
  unfold exchange
  rw [List.getElem?_cons_succ]
  cases rest[k]? <;> rfl

theorem exchange_map (f : α → β) (xs : List α) (k : Nat) :
    exchange (xs.map f) k = (exchange xs k).map f := by
  cases k with
  | zero => rw [exchange_zero, exchange_zero]
  | succ k =>
    cases xs with
    | nil => rfl
    | cons x rest =>
      rw [List.map_cons, exchange_succ, exchange_succ, List.getElem?_map]
      cases rest[k]? with
      | none => rfl
      | some y => simp

theorem exchange_zip (xs : List α) (ys : List β) (h : xs.length = ys.length) (k : Nat) :
    exchange (xs.zip ys) k = (exchange xs k).zip (exchange ys k) := by
  cases k with
  | zero => simp only [exchange_zero]
  | succ k =>
    cases xs with
    | nil => rfl
    | cons x xs =>
      cases ys with
      | nil => cases h
      | cons y ys =>
        have hlength : xs.length = ys.length := Nat.succ.inj h
        rw [List.zip_cons_cons, exchange_succ, exchange_succ, exchange_succ]
        by_cases hk : k < xs.length
        · have hxs : xs[k]? = some xs[k] := List.getElem?_eq_getElem hk
          have hys : ys[k]? = some ys[k] := List.getElem?_eq_getElem (hlength ▸ hk)
          have hzip : (xs.zip ys)[k]? = some (xs[k], ys[k]) :=
            List.getElem?_zip_eq_some.2 ⟨hxs, hys⟩
          rw [hzip, hxs, hys]
          simp only [Option.elim_some, List.zip_cons_cons]
          congr 1
          apply List.ext_getElem (by simp)
          intro i hi _
          simp only [List.getElem_set, List.getElem_zip]
          split <;> rfl
        · have hxs : xs[k]? = none := List.getElem?_eq_none (by omega)
          have hys : ys[k]? = none := List.getElem?_eq_none (by omega)
          have hzip : (xs.zip ys)[k]? = none := List.getElem?_eq_none (by simp; omega)
          rw [hxs, hys, hzip]
          rfl

/-- Nothing is lost in an exchange. -/
theorem mem_exchange {xs : List α} {x : α} (hx : x ∈ xs) (k : Nat) : x ∈ exchange xs k := by
  cases k with
  | zero => rwa [exchange_zero]
  | succ k =>
    cases xs with
    | nil => cases hx
    | cons y rest =>
      rw [exchange_succ]
      rcases hk : rest[k]? with _ | z
      · exact hx
      · obtain ⟨hlt, rfl⟩ := List.getElem?_eq_some_iff.1 hk
        rcases List.mem_cons.1 hx with rfl | hx
        · exact List.mem_cons_of_mem _ (List.mem_set hlt _)
        · obtain ⟨i, hi, rfl⟩ := List.mem_iff_getElem.1 hx
          by_cases hik : i = k
          · subst hik
            exact List.mem_cons_self
          · refine List.mem_cons_of_mem _ (List.mem_iff_getElem.2 ⟨i, by simpa using hi, ?_⟩)
            rw [List.getElem_set_ne (Ne.symm hik)]

end Exchanges

/-! ## Solutions -/

section Solutions

variable {𝕜 : Type} [Field 𝕜]

/-- The product of a row with a solution. -/
def product (r x : List 𝕜) : 𝕜 := (List.zipWith (· * ·) r x).sum

/-- Every row gives its right-hand side. -/
def Satisfies (x : List 𝕜) (rows : List (List 𝕜)) (b : List 𝕜) : Prop :=
  ∀ z ∈ rows.zip b, product z.1 x = z.2

theorem Satisfies.of_exchange {x : List 𝕜} {rows : List (List 𝕜)} {b : List 𝕜}
    (h : rows.length = b.length) {k : Nat} (hx : Satisfies x (exchange rows k) (exchange b k)) :
    Satisfies x rows b := by
  intro z hz
  refine hx z ?_
  rw [← exchange_zip rows b h]
  exact mem_exchange hz k

/-- As many rows as `h`, of `w` numbers each. -/
structure Rows (h w : Nat) (rows : List (List 𝕜)) : Prop where
  height : rows.length = h
  width : ∀ r ∈ rows, r.length = w

/-- The rows below `p :: right` with the first unknown eliminated. -/
def reduce (p : 𝕜) (right : List 𝕜) (others : List (List 𝕜)) : List (List 𝕜) :=
  others.map fun r => List.zipWith (fun x a => x - r.headD 0 / p * a) r.tail right

/-- The right-hand sides of the reduced rows, where `p :: right` has `y`. -/
def reduceSide (p y : 𝕜) (others : List (List 𝕜)) (ys : List 𝕜) : List 𝕜 :=
  List.zipWith (fun r x => x - r.headD 0 / p * y) others ys

omit [Field 𝕜] in
theorem Rows.exchange_cons {n : Nat} {rows : List (List 𝕜)} (h : Rows (n + 1) (n + 1) rows)
    (k : Nat) :
    ∃ p right others, exchange rows k = (p :: right) :: others ∧ right.length = n ∧
      Rows n (n + 1) others := by
  have hlength : (exchange rows k).length = n + 1 := (length_exchange rows k).trans h.height
  obtain ⟨top, others, htop⟩ := List.exists_cons_of_length_eq_add_one hlength
  rw [htop] at hlength
  have hwidth : ∀ r ∈ top :: others, r.length = n + 1 := fun r hr =>
    h.width r (mem_of_mem_exchange (htop ▸ hr))
  have htopWidth := hwidth top List.mem_cons_self
  obtain ⟨p, right, rfl⟩ := List.exists_cons_of_length_eq_add_one htopWidth
  exact ⟨p, right, others, htop, Nat.succ.inj htopWidth, Nat.succ.inj hlength,
    fun r hr => hwidth r (List.mem_cons_of_mem _ hr)⟩

theorem Rows.reduce {n : Nat} {right : List 𝕜} {others : List (List 𝕜)}
    (h : Rows n (n + 1) others) (hright : right.length = n) (p : 𝕜) :
    Rows n n (reduce p right others) := by
  refine ⟨by rw [TriangularFactors.reduce, List.length_map, h.height], fun r hr => ?_⟩
  obtain ⟨s, hs, rfl⟩ := List.mem_map.1 hr
  simp [h.width s hs, hright]

/-- A row less a multiple of another one. -/
theorem product_sub (m : 𝕜) {r right x : List 𝕜} (hr : r.length = x.length)
    (hright : right.length = x.length) :
    product (List.zipWith (fun x a => x - m * a) r right) x =
      product r x - m * product right x := by
  induction x generalizing r right with
  | nil => simp [product]
  | cons y x ih =>
    obtain ⟨s, r, rfl⟩ := List.exists_cons_of_length_eq_add_one hr
    obtain ⟨t, right, rfl⟩ := List.exists_cons_of_length_eq_add_one hright
    have htail := ih (Nat.succ.inj hr) (Nat.succ.inj hright)
    simp only [product, List.zipWith_cons_cons, List.sum_cons] at htail ⊢
    rw [htail]
    ring

/-- A solution of the reduced rows, and the first unknown from the row in front, solve all rows. -/
theorem Satisfies.cons {n : Nat} {p y : 𝕜} {right xs : List 𝕜} {others : List (List 𝕜)}
    {ys : List 𝕜} (hp : p ≠ 0) (hxs : xs.length = n) (hright : right.length = n)
    (hothers : Rows n (n + 1) others)
    (h : Satisfies xs (reduce p right others) (reduceSide p y others ys)) :
    Satisfies ((y - product right xs) / p :: xs) ((p :: right) :: others) (y :: ys) := by
  intro z hz
  rcases List.mem_cons.1 hz with rfl | hz
  · change p * ((y - product right xs) / p) + product right xs = y
    rw [mul_div_cancel₀ _ hp, sub_add_cancel]
  · obtain ⟨i, hi, rfl⟩ := List.mem_iff_getElem.1 hz
    have hi' : i < others.length ∧ i < ys.length := by simpa [List.length_zip] using hi
    have hwidth := hothers.width others[i] (List.getElem_mem _)
    obtain ⟨q, r, hr⟩ := List.exists_cons_of_length_eq_add_one hwidth
    have hlength : r.length = n := by
      rw [hr] at hwidth
      exact Nat.succ.inj hwidth
    have hrow : product (List.zipWith (fun x a => x - q / p * a) r right) xs =
        ys[i] - q / p * y := by
      refine h (_, _) (List.mem_iff_getElem.2 ⟨i, by simp [reduce, reduceSide, hi'], ?_⟩)
      simp [reduce, reduceSide, hr]
    rw [product_sub _ (hlength.trans hxs.symm) (hright.trans hxs.symm)] at hrow
    rw [List.getElem_zipWith, hr]
    change q * ((y - product right xs) / p) + product r xs = ys[i]
    rw [eq_add_of_sub_eq hrow]
    ring

end Solutions

/-! ## Entries -/

section Entries

variable {𝕜 K : Type} [RCLike 𝕜] [Entry Exact K] [ExactEntry 𝕜 K]

/-- Rows of numbers as rows of entries. -/
def numberRows (rows : List (List 𝕜)) : List (List K) := rows.map (List.map number)

theorem foldl_sub_numbers (a : 𝕜) (xs : List 𝕜) :
    List.foldl (· - ·) (number a : K) (xs.map number) = number (a - xs.sum) := by
  induction xs generalizing a with
  | nil => simp
  | cons x xs ih =>
    rw [List.sum_cons, ← sub_sub, ← ih (a - x), List.map_cons, List.foldl_cons, ExactEntry.sub]

theorem headD_number (r : List 𝕜) :
    (r.map number).headD (Entry.zero : K) = number (r.headD 0) := by
  cases r with
  | nil => exact zero_eq 𝕜
  | cons x r => rfl

/-- The multipliers of rows of numbers for a pivot that is not zero. -/
theorem multipliers_number {p : 𝕜} (hp : p ≠ 0) (others : List (List 𝕜)) :
    (numberRows others).map (fun r : List K =>
        if Entry.isZero (number p : K) then r.headD Entry.zero
        else r.headD Entry.zero / number p) =
      others.map fun r => number (r.headD 0 / p) := by
  have hpivot : ¬Entry.isZero (number p : K) = true := fun h =>
    hp (number_injective ((isZero_iff _).1 h))
  simp only [numberRows, List.map_map, if_neg hpivot]
  refine List.map_congr_left fun r _ => ?_
  rw [Function.comp_apply, headD_number, ExactEntry.div _ hp]

theorem left_number (p : 𝕜) (right : List 𝕜) (others : List (List 𝕜)) :
    List.zipWith (fun (m : K) r => List.zipWith (fun x a => x - m * a) r.tail (right.map number))
        (others.map fun r => number (r.headD 0 / p)) (numberRows others) =
      numberRows (reduce p right others) := by
  simp only [reduce, numberRows, List.zipWith_map, List.zipWith_self, List.map_map]
  refine List.map_congr_left fun r _ => ?_
  simp only [Function.comp_apply, ← List.map_tail, List.zipWith_map, List.map_zipWith,
    ExactEntry.mul, ExactEntry.sub]

/-- Factors whose first pivot is not zero are those of the reduced rows below it. -/
theorem ofRows_numbers {n k : Nat} {rows : List (List 𝕜)} {p : 𝕜} {right : List 𝕜}
    {others : List (List 𝕜)}
    (hk : k = pivotPlace ((numberRows rows : List (List K)).map (·.headD Entry.zero)))
    (hchosen : exchange rows k = (p :: right) :: others)
    (hpivots : ∀ q ∈ (ofRows (n + 1) (numberRows rows : List (List K))).pivots, q ≠ number 0) :
    p ≠ 0 ∧ ofRows (n + 1) (numberRows rows : List (List K)) =
      .level k (number p) (right.map number) (others.map fun r => number (r.headD 0 / p))
        (ofRows n (numberRows (reduce p right others))) := by
  have hexchange : exchange (numberRows rows : List (List K)) k =
      numberRows ((p :: right) :: others) := by
    rw [numberRows, exchange_map, hchosen]
    rfl
  have hp : p ≠ 0 := by
    have hfirst : number p ∈ (ofRows (n + 1) (numberRows rows : List (List K))).pivots := by
      simp only [ofRows, ← hk, hexchange]
      exact List.mem_cons_self
    exact fun h => hpivots _ hfirst (congrArg number h)
  refine ⟨hp, ?_⟩
  rw [← left_number, ← multipliers_number hp]
  simp only [ofRows, ← hk, hexchange]
  rfl

/-- One level of back substitution. -/
theorem solve_level {k : Nat} {p y : 𝕜} {right xs b ys : List 𝕜} {others : List (List 𝕜)}
    {rest : TriangularFactors K} (hp : p ≠ 0) (hchosen : exchange b k = y :: ys)
    (hrest : rest.solve ((reduceSide p y others ys).map number) = xs.map number) :
    (level k (number p) (right.map number) (others.map fun r => number (r.headD 0 / p)) rest).solve
      (b.map number) = ((y - product right xs) / p :: xs).map number := by
  have hside : List.zipWith (fun (m : K) x => x - m * number y)
      (others.map fun r => number (r.headD 0 / p)) (ys.map number) =
      (reduceSide p y others ys).map number := by
    simp only [reduceSide, List.zipWith_map, List.map_zipWith, ExactEntry.mul, ExactEntry.sub]
  have hproducts : List.zipWith (· * ·) (right.map number : List K) (xs.map number) =
      (List.zipWith (· * ·) right xs).map number := by
    simp only [List.zipWith_map, List.map_zipWith, ExactEntry.mul]
  simp only [solve, exchange_map, hchosen, List.map_cons, hside, hrest, hproducts,
    foldl_sub_numbers, ExactEntry.div _ hp, product]

/-- **Exactness.**  Factors without a zero pivot solve the systems with their matrix. -/
theorem solve_numbers (n : Nat) {rows : List (List 𝕜)} {b : List 𝕜} (hrows : Rows n n rows)
    (hb : b.length = n)
    (hpivots : ∀ p ∈ (ofRows n (numberRows rows : List (List K))).pivots, p ≠ number 0) :
    ∃ x : List 𝕜, x.length = n ∧
      (ofRows n (numberRows rows : List (List K))).solve (b.map number) = x.map number ∧
        Satisfies x rows b := by
  -- the first unknown is eliminated from the factors and from the system alike
  induction n generalizing rows b with
  | zero =>
    obtain rfl := List.length_eq_zero_iff.1 hrows.height
    exact ⟨[], rfl, rfl, by simp [Satisfies]⟩
  | succ n ih =>
    obtain ⟨k, hk⟩ : ∃ k, k = pivotPlace
        ((numberRows rows : List (List K)).map (·.headD Entry.zero)) := ⟨_, rfl⟩
    have hside : (exchange b k).length = n + 1 := (length_exchange b k).trans hb
    obtain ⟨p, right, others, htop, hright, hothers⟩ := hrows.exchange_cons k
    obtain ⟨y, ys, hy⟩ := List.exists_cons_of_length_eq_add_one hside
    obtain ⟨hp, hfactors⟩ := ofRows_numbers hk htop hpivots
    rw [hfactors] at hpivots ⊢
    have hys : (reduceSide p y others ys).length = n := by
      rw [hy] at hside
      simp [reduceSide, hothers.height, Nat.succ.inj hside]
    obtain ⟨xs, hxs, hsolved, hsatisfies⟩ := ih (hothers.reduce hright p) hys
      fun q hq => hpivots q (List.mem_cons_of_mem _ hq)
    refine ⟨(y - product right xs) / p :: xs, by rw [List.length_cons, hxs],
      solve_level hp hy hsolved, .of_exchange (hrows.height.trans hb.symm) (k := k) ?_⟩
    rw [htop, hy]
    exact hsatisfies.cons hp hxs hright hothers

/-- The factors of a matrix without a zero pivot, applied to a vector. -/
theorem ofDense_solves {n : Nat} {D : Dense K} {N : FieldMatrix 𝕜 n n} (hD : D.Reads N)
    {b : Vec K} {g : Fin n → 𝕜} (hb : b.Reads g)
    (hpivots : ∀ p ∈ (ofDense D).pivots, p ≠ number 0) :
    ∃ y, (Vec.ofList ((ofDense D).solve b.toList)).Reads y ∧ N *ᵥ y = g := by
  have hrows : D.rows = numberRows (List.ofFn fun i => List.ofFn (N i)) := by
    rw [hD.rows, numberRows, List.map_ofFn]
    rfl
  unfold ofDense at hpivots ⊢
  rw [hD.cols, hrows] at hpivots ⊢
  obtain ⟨x, hx, hsolved, hsatisfies⟩ :=
    solve_numbers n (b := List.ofFn g) ⟨by simp, by simp⟩ (by simp) hpivots
  subst hx
  refine ⟨x.get, ?_, ?_⟩
  · rw [hb, Vec.Reads, List.ofFn_get]
    exact hsolved
  · funext i
    have hi : (List.ofFn (N i), g i) ∈
        (List.ofFn fun i => List.ofFn (N i)).zip (List.ofFn g) :=
      List.mem_iff_getElem.2 ⟨i, by simp, by simp⟩
    have hproduct : product (List.ofFn (N i)) (List.ofFn x.get) = g i := by
      rw [List.ofFn_get]
      exact hsatisfies _ hi
    rw [product, Vec.zipWith_ofFn, List.sum_ofFn] at hproduct
    exact hproduct

end Entries

end TriangularFactors

/-! ## Direct methods -/

/-- A method by elimination. -/
def SolveMethod.IsDirect : SolveMethod → Prop
  | lu | splu => True
  | gmres | lstsq => False

section Direct

variable {σ : Type}

variable {𝕜 K : Type} [RCLike 𝕜] [Entry Exact K] [ExactEntry 𝕜 K]

variable (𝕜) in
/-- The direct methods of a backend solve the systems with matrices that they accept. -/
structure Backend.Eliminates (B : Backend σ Exact K) : Prop where
  lu {n : Nat} {D : Dense K} {N : FieldMatrix 𝕜 n n} {b : Vec K} {g : Fin n → 𝕜} :
    D.Reads N → b.Reads g → singularDetails? (B.pivots D) D.height = none →
      ∃ y, (B.luSolve D b).Reads y ∧ N *ᵥ y = g
  splu {n : Nat} {D : Dense K} {N : FieldMatrix 𝕜 n n} {b : Vec K} {g : Fin n → 𝕜} :
    D.Reads N → b.Reads g → B.sparseSingular D = false →
      ∃ y, (B.sparseSolve D b).Reads y ∧ N *ᵥ y = g

/-- The direct methods of a backend solve the real systems with matrices that they accept. -/
structure Backend.Direct (B : Backend σ Exact Exact) : Prop where
  lu {n : Nat} {D : Dense Exact} {N : RealMatrix n n} {b : Vec Exact} {g : Fin n → ℝ} :
    D.Holds N → b.Holds g → singularDetails? (B.pivots D) D.height = none →
      ∃ y, (B.luSolve D b).Holds y ∧ N *ᵥ y = g
  splu {n : Nat} {D : Dense Exact} {N : RealMatrix n n} {b : Vec Exact} {g : Fin n → ℝ} :
    D.Holds N → b.Holds g → B.sparseSingular D = false →
      ∃ y, (B.sparseSolve D b).Holds y ∧ N *ᵥ y = g

theorem Backend.direct_iff {B : Backend σ Exact Exact} : B.Direct ↔ B.Eliminates ℝ :=
  ⟨fun h => ⟨fun hD => h.lu (Dense.holds_iff_reads.2 hD),
      fun hD => h.splu (Dense.holds_iff_reads.2 hD)⟩,
    fun h => ⟨fun hD => h.lu (Dense.holds_iff_reads.1 hD),
      fun hD => h.splu (Dense.holds_iff_reads.1 hD)⟩⟩

variable (𝕜) in
/-- Pivots that are large enough are not zero. -/
theorem ne_zero_of_singularDetails {pivots : List K} {height : Nat}
    (h : singularDetails? (pivots.map Entry.abs) height = none) :
    ∀ p ∈ pivots, p ≠ number (0 : 𝕜) := by
  intro p hp hzero
  have hmem : real 0 ∈ pivots.map Entry.abs := by
    refine List.mem_map.2 ⟨p, hp, ?_⟩
    rw [hzero, ExactEntry.abs, norm_zero]
  unfold singularDetails? at h
  simp only [ite_eq_right_iff, reduceCtorEq, imp_false, Bool.not_eq_true, Bool.or_eq_false_iff,
    Bool.not_eq_false'] at h
  rcases h with ⟨⟨-, hlarge⟩, hfinite⟩
  obtain ⟨y, hy⟩ := isReal_iff.1 hfinite
  have hy₀ : 0 ≤ y := by
    cases hmaximum : Vec.maximum? (.ofList (pivots.map Entry.abs)) with
    | none =>
      rw [hmaximum, Option.getD_none, ofScientific_eq] at hy
      rw [← Exact.real.inj hy]
      norm_num
    | some m =>
      rw [hmaximum, Option.getD_some] at hy
      exact real_le.1 (le_of_maximum?_le hmaximum (hy ▸ real_le.2 le_rfl) (real 0) hmem)
  rw [hy] at hlarge
  -- a pivot of zero is within every tolerance that is not negative
  refine List.any_eq_false.1 hlarge (real 0) hmem (decide_eq_true ?_)
  rw [epsilon_eq]
  change real 0 ≤ real (height * (1 / 4503599627370496) * y)
  rw [real_le]
  positivity

variable (𝕜) in
theorem Backend.standard_eliminates : (Backend.standard : Backend σ Exact K).Eliminates 𝕜 where
  lu hD hb h := TriangularFactors.ofDense_solves hD hb (ne_zero_of_singularDetails 𝕜 h)
  splu hD hb h := TriangularFactors.ofDense_solves hD hb fun p hp hzero => by
    have hany : (TriangularFactors.ofDense _).pivots.any Entry.isZero = true :=
      List.any_eq_true.2 ⟨p, hp, (isZero_iff p).2 hzero⟩
    exact Bool.false_ne_true (h.symm.trans hany)

theorem Backend.standard_direct : (Backend.standard : Backend σ Exact Exact).Direct :=
  Backend.direct_iff.2 (Backend.standard_eliminates ℝ)

/-- A square matrix that is not free is solved by elimination unless another method was asked
for. -/
theorem Matrix.Reads.forMatrix_isDirect {n : Nat} {A : Matrix Exact K} {N : FieldMatrix 𝕜 n n}
    (hA : A.Reads N) : (SolveMethod.forMatrix A).IsDirect := by
  have hsquare : A.isSquare = true := by simp [Matrix.isSquare, hA.height, hA.cols]
  unfold SolveMethod.forMatrix
  rw [if_pos hsquare]
  cases A with
  | dense A => trivial
  | sparse A => trivial
  | free A => exact hA.elim

theorem Matrix.Holds.forMatrix_isDirect {n : Nat} {A : Matrix Exact Exact} {N : RealMatrix n n}
    (hA : A.Holds N) : (SolveMethod.forMatrix A).IsDirect :=
  (holds_iff_reads.1 hA).forMatrix_isDirect

/-- The dense matrix with the entries of a matrix. -/
theorem Matrix.Reads.concrete {m n : Nat} {A : Matrix Exact K} {N : FieldMatrix 𝕜 m n}
    (hA : A.Reads N) :
    ∃ D : Dense K, D.Reads N ∧ LinearSystem.concrete A = .ok D ∧ A.toDense? = some D := by
  cases A with
  | dense A => exact ⟨A, hA, rfl, rfl⟩
  | sparse A => exact ⟨_, Sparse.Reads.dense hA, rfl, rfl⟩
  | free A => exact hA.elim

/-- A right-hand side for a real matrix is real. -/
theorem Dense.Reads.isReal {n : Nat} {D : Dense K} {N : FieldMatrix 𝕜 n n} (hD : D.Reads N)
    {b : Vec K} {g : Fin n → 𝕜} (hb : b.Reads g) (h : Dense.isReal D = true) :
    b.isReal = true := by
  rw [hb]
  refine List.all_eq_true.2 fun x hx => ?_
  obtain ⟨z, hz, rfl⟩ := List.mem_map.1 hx
  obtain ⟨i, rfl⟩ := List.mem_ofFn.1 hz
  -- the row of the same place has an entry, and all entries are real or none is
  have hrow : (Vec.numbers (List.ofFn (N i)) : Vec K).toList ∈ D.rows := by
    rw [hD.rows]
    exact List.mem_ofFn.2 ⟨i, rfl⟩
  have hentry : (number (N i i) : K) ∈ (Vec.numbers (List.ofFn (N i)) : Vec K).toList :=
    List.mem_map.2 ⟨_, List.mem_ofFn.2 ⟨i, rfl⟩, rfl⟩
  have hreal := List.all_eq_true.1 (List.all_eq_true.1 h _ hrow) _ hentry
  exact (isReal_eq _ _).trans hreal

namespace LinearSystem

open Action

variable {n : Nat}

/-- What the method has computed is answered, if it is finite. -/
theorem solve_answers {B : Backend σ Exact K} {F : Vec K → Work σ Exact K (Vec K)}
    {A : Matrix Exact K} {b : Vec K} {w : Workspace σ Exact K} {M : SolveMethod} {x : Vec K}
    (hmatrix : w.system.matrix = some A) (hM : w.system.method = some M)
    (hx : solveBy B F A w.system b M = Action.ofFault (.ok x)) (hfinite : x.isFinite = true) :
    (solve B F b).Ends w (fun y _ => y = x) (fun _ _ => False) := by
  rw [solve, ends_bind, ends_get]
  simp only [hmatrix, hM, Option.getD_some, hx, change, ends_bind, ends_modify,
    ends_ofFault_ok rfl, answer, hfinite, Bool.not_true, Bool.false_eq_true, if_false, ends_pure]

/-- A direct method that takes a matrix answers the solution. -/
theorem eliminates {B : Backend σ Exact K} (hB : B.Eliminates 𝕜) {A : Matrix Exact K}
    {N : FieldMatrix 𝕜 n n} (hA : A.Reads N) {b : Vec K} {g : Fin n → 𝕜} (hb : b.Reads g)
    (F : Vec K → Work σ Exact K (Vec K)) {w : Workspace σ Exact K}
    (hmethod : (w.system.method.getD (SolveMethod.forMatrix A)).IsDirect) :
    (factorize B A).Ends w
      (fun _ w' => (solve B F b).Ends w' (fun x _ => ∃ y, x.Reads y ∧ N *ᵥ y = g)
        (fun _ _ => False))
      (fun _ _ => True) := by
  obtain ⟨D, hD, hconcrete, hdense⟩ := hA.concrete
  have hsize : ¬b.size ≠ D.height := by rw [hb.size, hD.height, not_not]
  have hsquare : D.isSquare = true := by simp [Grid.isSquare, hD.height, hD.cols]
  refine (factorize_spec B A w).mono (fun _ t ht => ?_) fun _ _ _ => trivial
  obtain ⟨factors, hprepares, rfl⟩ := ht
  cases hM : w.system.method.getD (SolveMethod.forMatrix A) with
  | lu =>
    rw [hM] at hprepares
    cases hprepares with
    | lu D' dense regular =>
      cases hconcrete.symm.trans dense
      obtain ⟨y, hy, hsolves⟩ := hB.lu hD hb regular
      refine (solve_answers rfl rfl ?_ hy.isFinite).mono
        (fun x _ hx => ⟨y, by rw [hx]; exact hy, hsolves⟩) (fun _ _ h => h)
      simp only [factorized, solveBy, solveDense, if_neg hsize, hsquare, Bool.not_true,
        Bool.false_eq_true, if_false]
  | splu =>
    rw [hM] at hprepares
    cases hprepares with
    | splu D' dense square regular =>
      cases hdense.symm.trans dense
      obtain ⟨y, hy, hsolves⟩ := hB.splu hD hb regular
      have hreal : ¬(Dense.isReal D && !b.isReal) = true := by
        rw [Bool.and_eq_true_iff, Bool.not_eq_true']
        rintro ⟨hD', hb'⟩
        exact Bool.false_ne_true (hb'.symm.trans (hD.isReal hb hD'))
      refine (solve_answers rfl rfl ?_ hy.isFinite).mono
        (fun x _ hx => ⟨y, by rw [hx]; exact hy, hsolves⟩) (fun _ _ h => h)
      simp only [factorized, solveBy, solveSparse, if_neg hreal, if_neg hsize]
  | gmres | lstsq =>
    rw [hM] at hmethod
    exact hmethod.elim

/-- A direct method that takes a matrix of real numbers answers the solution. -/
theorem direct_solves {B : Backend σ Exact Exact} (hB : B.Direct) {A : Matrix Exact Exact}
    {N : RealMatrix n n} (hA : A.Holds N) {b : Vec Exact} {g : Fin n → ℝ} (hb : b.Holds g)
    (F : Vec Exact → Work σ Exact Exact (Vec Exact)) {w : Workspace σ Exact Exact}
    (hmethod : (w.system.method.getD (SolveMethod.forMatrix A)).IsDirect) :
    (factorize B A).Ends w
      (fun _ w' => (solve B F b).Ends w' (fun x _ => ∃ y, x.Holds y ∧ N *ᵥ y = g)
        (fun _ _ => False))
      (fun _ _ => True) :=
  eliminates (Backend.direct_iff.1 hB) (Matrix.holds_iff_reads.1 hA) hb F hmethod

/-- Pivots of one size that is not zero are accepted. -/
theorem equal_accepted {d : ℝ} (hd : d ≠ 0) {pivots : List Exact} (hpivots : pivots ≠ [])
    (hequal : ∀ p ∈ pivots, p = Exact.real |d|) {height : Nat}
    (hheight : height < 4503599627370496) : singularDetails? pivots height = none := by
  have hpositive : 0 < |d| := abs_pos.2 hd
  have hlargest : (Vec.maximum? (.ofList pivots)).getD 0.0 = Exact.real |d| := by
    cases hmaximum : Vec.maximum? (.ofList pivots) with
    | none =>
      cases pivots with
      | nil => exact absurd rfl hpivots
      | cons p pivots => cases hmaximum
    | some m => exact hequal m (Vec.maximum?_mem hmaximum)
  have hsame : Scalar.same (Exact.real |d|) 0.0 = false := by
    rw [← Bool.not_eq_true, Exact.ofScientific_eq, Exact.same_iff]
    norm_num
    exact hd
  have hlarge : ∀ p ∈ pivots, ¬p ≤ Scalar.ofNat height * Scalar.epsilon * Exact.real |d| := by
    intro p hp
    have hcast : (height : ℝ) < 4503599627370496 := by exact_mod_cast hheight
    rw [hequal p hp, Exact.epsilon_eq]
    change ¬Exact.real |d| ≤ Exact.real (height * (1 / 4503599627370496) * |d|)
    rw [Exact.real_le, not_le]
    nlinarith
  have hany : (pivots.any fun p => p ≤ Scalar.ofNat height * Scalar.epsilon * Exact.real |d|) =
      false := List.any_eq_false.2 fun p hp => by simpa using hlarge p hp
  unfold singularDetails?
  simp only [hlargest, hsame, hany]
  rfl

/-- A square matrix whose pivots are accepted is factorised with dense factors. -/
theorem factorize_of_pivots {D : Dense Exact} (hsquare : D.isSquare = true)
    (haccepted : singularDetails? ((TriangularFactors.ofDense (R := Exact) D).pivots.map Entry.abs)
      D.height = none) {w : Workspace σ Exact Exact} (hmethod : w.system.method.getD .lu = .lu) :
    (factorize Backend.standard (.dense D)).Ends w (fun _ _ => True) (fun _ _ => False) := by
  have hdense : SolveMethod.forMatrix (.dense D : Matrix Exact Exact) = .lu := if_pos hsquare
  unfold factorize
  simp only [ends_bind, ends_get, hdense, hmethod, change, ends_modify, factorizeDense]
  refine (ends_ofFault_ok rfl).2 ?_
  split
  next details h => cases haccepted.symm.trans h
  next => trivial

/-- A matrix of one entry that is not zero is factorised. -/
theorem factorize_single {D : Dense Exact} {N : FieldMatrix ℝ 1 1} (hD : D.Reads N) (hN : N 0 0 ≠ 0)
    {w : Workspace σ Exact Exact} (hmethod : w.system.method.getD .lu = .lu) :
    (factorize Backend.standard (.dense D)).Ends w (fun _ _ => True)
      (fun _ _ => False) := by
  obtain ⟨cols, rows, rect⟩ := D
  obtain rfl : cols = 1 := hD.cols
  obtain rfl : rows = [[Exact.real (N 0 0)]] := hD.rows
  have haccepted : singularDetails? [Exact.real |N 0 0|] 1 = none :=
    equal_accepted hN (List.cons_ne_nil _ _) (fun p hp => List.mem_singleton.1 hp) (by norm_num)
  refine factorize_of_pivots ?_ ?_ hmethod
  · rfl
  · exact haccepted

/-- Wherever it is left to the method `M`, the system with the matrix `N` and the right-hand side
`g` is answered by `y`. -/
def Answers (B : Backend σ Exact K) (F : Vec K → Work σ Exact K (Vec K)) (M : SolveMethod)
    (N : FieldMatrix 𝕜 n n) (g y : Fin n → 𝕜) : Prop :=
  ∀ (D : Dense K) (b : Vec K) (w : Workspace σ Exact K), D.Reads N → b.Reads g →
    w.system.method.getD .lu = M →
      (factorize B (.dense D)).Ends w
        (fun _ w' => (solve B F b).Ends w' (fun x _ => x.Reads y) (fun _ _ => False))
        (fun _ _ => False)

/-- The solution of an equation in one unknown. -/
theorem answers_single {N : FieldMatrix ℝ 1 1} (hN : N 0 0 ≠ 0) {g y : Fin 1 → ℝ}
    (hy : N 0 0 * y 0 = g 0) (F : Vec Exact → Work σ Exact Exact (Vec Exact)) :
    Answers Backend.standard F .lu N g y := by
  intro D b w hD hb hmethod
  have hA : (Matrix.dense D : Matrix Exact Exact).Reads N := hD
  have hdirect : (w.system.method.getD
      (SolveMethod.forMatrix (Matrix.dense D : Matrix Exact Exact))).IsDirect := by
    cases hM : w.system.method with
    | none => exact hA.forMatrix_isDirect
    | some M =>
      rw [hM, Option.getD_some] at hmethod
      rw [Option.getD_some, hmethod]
      trivial
  have hsolves := eliminates (Backend.standard_eliminates ℝ) hA hb F hdirect
  refine ((factorize_single hD hN hmethod).and hsolves).mono (fun _ w' hw' => ?_)
    (fun _ _ h => h.1)
  refine hw'.2.mono (fun x _ hx => ?_) (fun _ _ h => h)
  obtain ⟨z, hz, hsolution⟩ := hx
  have hrow : N 0 0 * z 0 = g 0 := by simpa [Matrix.mulVec, dotProduct] using congrFun hsolution 0
  obtain rfl : z = y := by
    funext i
    rw [Fin.fin_one_eq_zero i]
    exact mul_left_cancel₀ hN (hrow.trans hy.symm)
  exact hz

end LinearSystem

end Direct

end RootFinding
