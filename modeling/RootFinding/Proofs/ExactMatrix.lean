import Mathlib.LinearAlgebra.Matrix.NonsingularInverse
import RootFinding.Jacobian
import RootFinding.Proofs.ExactEntry

/-!
# Matrices of exact arithmetic

Vectors and matrices of exact numbers as those of the field that the numbers are from.

* `Vec.Reads`, `Matrix.Reads`: the entries of a vector or of a matrix that is not free are the given
  numbers. A sparse matrix computes what the dense one with its entries does
  (`Sparse.Reads.gram` and its neighbours), so `Matrix.Reads.gram`, `Matrix.Reads.addDiagonal` and
  `Matrix.Reads.applyTranspose` are statements about matrices over the field.
-/

open scoped Matrix

/-- Matrices of numbers of a field. -/
abbrev FieldMatrix (𝕜 : Type) (m n : Nat) : Type := Matrix (Fin m) (Fin n) 𝕜

namespace FieldMatrix

variable {𝕜 : Type} [Field 𝕜] {n : Nat}

/-- The matrix with numbers added to its main diagonal. -/
def addDiagonal (N : FieldMatrix 𝕜 n n) (d : Fin n → 𝕜) : FieldMatrix 𝕜 n n :=
  N + Matrix.diagonal d

theorem addDiagonal_apply (N : FieldMatrix 𝕜 n n) (d : Fin n → 𝕜) (i j : Fin n) :
    N.addDiagonal d i j = N i j + if i = j then d i else 0 := by
  rw [addDiagonal, Matrix.add_apply, Matrix.diagonal_apply]

/-- The normal equations of a system with a matrix that has an inverse have its solution only. -/
theorem eq_of_gram {M : FieldMatrix 𝕜 n n} (hM : IsUnit M.det) {f x y : Fin n → 𝕜}
    (hx : M *ᵥ x = f) (hy : (Mᵀ * M) *ᵥ y = Mᵀ *ᵥ f) : y = x := by
  have hgram : IsUnit (Mᵀ * M).det := by
    rw [Matrix.det_mul, Matrix.det_transpose]
    exact hM.mul hM
  have hsame : (Mᵀ * M) *ᵥ y = (Mᵀ * M) *ᵥ x := by
    rw [hy, ← hx, Matrix.mulVec_mulVec]
  exact Matrix.mulVec_injective_of_isUnit ((Matrix.isUnit_iff_isUnit_det _).2 hgram) hsame

end FieldMatrix

namespace RootFinding

open Exact ExactEntry

/-! ## Lists -/

/-- A list as a function of the place, from what is known of another image of its elements. -/
theorem Vec.map_eq_ofFn {α β γ : Type} {n : Nat} {l : List α} {h : α → β} {c : Fin n → β}
    (hl : l.map h = List.ofFn c) {g : α → γ} {G : Fin n → γ} (hg : ∀ a i, h a = c i → g a = G i) :
    l.map g = List.ofFn G := by
  have hlength : l.length = n := by simpa using congrArg List.length hl
  subst hlength
  apply List.ext_getElem (by simp)
  intro i hi _
  rw [List.getElem_map, List.getElem_ofFn]
  refine hg _ _ ?_
  have hi' : i < (l.map h).length := by simpa using hi
  rw [← List.getElem_map h (h := hi'), ← List.getElem_ofFn (f := c) (h := by simpa using hi)]
  simp only [hl]

theorem Vec.zipWith_ofFn {α β γ : Type} {n : Nat} (f : α → β → γ) (x : Fin n → α)
    (y : Fin n → β) :
    List.zipWith f (List.ofFn x) (List.ofFn y) = List.ofFn fun i => f (x i) (y i) := by
  apply List.ext_getElem <;> simp

namespace Grid

variable {α β : Type}

theorem get_map (f : α → β) (A : Grid α) (d : α) (i j : Nat) :
    (A.map f).get (f d) i j = f (A.get d i j) := by
  simp only [get, map, List.getD_eq_getElem?_getD, List.getElem?_map]
  rcases A.rows[i]? with _ | r
  · simp
  · simp only [Option.map_some, Option.getD_some, List.getElem?_map, Option.getD_map]

theorem columns_map (f : α → β) (A : Grid α) (d : α) :
    (A.map f).columns (f d) = (A.columns d).map (List.map f) := by
  simp [columns, map, Function.comp_def]

theorem diagonal_map (f : α → β) (A : Grid α) (d : α) :
    (A.map f).diagonal (f d) = (A.diagonal d).map f := by
  have hheight : (A.map f).height = A.height := List.length_map _
  simp only [diagonal, get_map, hheight, List.map_map]
  rfl

theorem map_mapDiagonal {f : Nat → α → α} {f' : Nat → β → β} {g : α → β}
    (h : ∀ i x, g (f i x) = f' i (g x)) (A : Grid α) :
    ((A.mapDiagonal f).map g).rows = ((A.map g).mapDiagonal f').rows := by
  apply List.ext_getElem (by simp [map, mapDiagonal])
  intro i hi _
  simp only [map, mapDiagonal, List.getElem_map, List.getElem_mapIdx]
  apply List.ext_getElem (by simp)
  intro j hj _
  simp only [List.getElem_map, List.getElem_modify]
  split
  next => exact h i _
  next => rfl

end Grid

variable {𝕜 K : Type} [RCLike 𝕜] [Entry Exact K] [ExactEntry 𝕜 K]

/-! ## Vectors -/

namespace Vec

/-- The vector of some numbers. -/
def numbers (xs : List 𝕜) : Vec K := .ofList (xs.map number)

/-- The entries of a vector are the given numbers. -/
def Reads {n : Nat} (v : Vec K) (x : Fin n → 𝕜) : Prop := v = numbers (List.ofFn x)

variable {n : Nat} {v w : Vec K} {x y : Fin n → 𝕜}

theorem toList_numbers (x : Fin n → 𝕜) :
    (numbers (List.ofFn x) : Vec K).toList = List.ofFn fun i => number (x i) :=
  List.map_ofFn

theorem reads_iff : v.Reads x ↔ v.toList = List.ofFn fun i => number (x i) := by
  rw [← toList_numbers]
  exact Iff.rfl

theorem Reads.size (hv : v.Reads x) : v.size = n := by
  rw [hv]
  exact (List.length_map (number : 𝕜 → K)).trans List.length_ofFn

theorem Reads.isFinite (hv : v.Reads x) : v.isFinite = true := by
  rw [hv]
  refine List.all_eq_true.2 fun a ha => ?_
  obtain ⟨z, -, rfl⟩ := List.mem_map.1 ha
  exact isFinite_number z

/-- A vector reads as one list of numbers only. -/
theorem Reads.inj (hv : v.Reads x) (hy : v.Reads y) : x = y :=
  List.ofFn_injective (List.map_injective_iff.2 number_injective (hv.symm.trans hy))

theorem foldl_add_numbers (a : 𝕜) (xs : List 𝕜) :
    List.foldl (· + ·) (number a : K) (numbers xs) = number (a + xs.sum) := by
  induction xs generalizing a with
  | nil => simp [numbers, ofList]
  | cons x xs ih =>
    rw [List.sum_cons, ← add_assoc, ← ih (a + x), ← ExactEntry.add]
    rfl

theorem zipWith_numbers {f : K → K → K} {g : 𝕜 → 𝕜 → 𝕜}
    (hf : ∀ x y, f (number x) (number y) = number (g x y)) (xs ys : List 𝕜) :
    zipWith f (numbers xs) (numbers ys) = numbers (List.zipWith g xs ys) := by
  simp only [zipWith, numbers, ofList, List.zipWith_map, List.map_zipWith, hf]
  rfl

theorem sum_numbers (xs : List 𝕜) : (numbers xs : Vec K).sum = number xs.sum := by
  rw [Vec.sum, zero_eq 𝕜, foldl_add_numbers, zero_add]

theorem Reads.dot (hv : v.Reads x) (hw : w.Reads y) : v.dot w = number (∑ i, x i * y i) := by
  rw [hv, hw, Vec.dot, zipWith_numbers ExactEntry.mul, sum_numbers, zipWith_ofFn, List.sum_ofFn]

theorem Reads.zipWith_of {f : K → K → K} {z : Fin n → 𝕜} (hv : v.Reads x) (hw : w.Reads y)
    (hf : ∀ i, f (number (x i)) (number (y i)) = number (z i)) :
    (Vec.zipWith f v w).Reads z := by
  rw [reads_iff] at hv hw ⊢
  change List.zipWith f v.toList w.toList = _
  rw [hv, hw, zipWith_ofFn]
  exact congrArg List.ofFn (funext hf)

theorem Reads.zipWith {f : K → K → K} {g : 𝕜 → 𝕜 → 𝕜} (hv : v.Reads x) (hw : w.Reads y)
    (hf : ∀ x y, f (number x) (number y) = number (g x y)) :
    (Vec.zipWith f v w).Reads fun i => g (x i) (y i) :=
  hv.zipWith_of hw fun i => hf (x i) (y i)

theorem Reads.add (hv : v.Reads x) (hw : w.Reads y) : (v + w).Reads (x + y) :=
  hv.zipWith hw ExactEntry.add

theorem Reads.sub (hv : v.Reads x) (hw : w.Reads y) : (v - w).Reads (x - y) :=
  hv.zipWith hw ExactEntry.sub

variable (𝕜) in
include 𝕜 in
/-- A difference with an entry for each of those of its first term is finite only if that term
is. -/
theorem isFinite_of_sub {d : Vec K} (h : (v - d).isFinite = true) (hsize : (v - d).size = v.size) :
    v.isFinite = true := by
  induction v generalizing d with
  | nil => rfl
  | cons a v ih =>
    cases d with
    | nil => cases hsize
    | cons b d =>
      obtain ⟨ha, hv⟩ := Bool.and_eq_true_iff.1 h
      exact Bool.and_eq_true_iff.2 ⟨(isFinite_sub ha).1, ih hv (Nat.succ.inj hsize)⟩

theorem Reads.map {𝕝 L : Type} [RCLike 𝕝] [Entry Exact L] [ExactEntry 𝕝 L] (hv : v.Reads x)
    {f : K → L} {g : 𝕜 → 𝕝} (hf : ∀ a, f (number a) = number (g a)) :
    (v.map f).Reads fun i => g (x i) := by
  rw [reads_iff] at hv ⊢
  change List.map f v.toList = _
  rw [hv, List.map_ofFn]
  exact congrArg List.ofFn (funext fun i => hf (x i))

theorem Reads.divideBy (hv : v.Reads x) {a : ℝ} (ha : a ≠ 0) :
    (v.divideBy (real a)).Reads fun i => x i / (a : 𝕜) :=
  hv.map (g := (· / (a : 𝕜))) fun b => by
    rw [ExactEntry.ofReal, ExactEntry.div _ (RCLike.ofReal_ne_zero.2 ha)]

theorem Reads.total {v : Vec Exact} {x : Fin n → ℝ} (hv : v.Reads x) :
    v.total = real (∑ i, x i) := by
  have hzero : (0.0 : Exact) = real 0 := by norm_num
  rw [hv, Vec.total, hzero]
  refine (foldl_add_numbers (K := Exact) (0 : ℝ) (List.ofFn x)).trans ?_
  rw [zero_add, List.sum_ofFn]
  rfl

theorem reads_replicate (n : Nat) (a : 𝕜) :
    (Vec.replicate n (number a : K)).Reads fun _ : Fin n => a := by
  rw [Reads, List.ofFn_const]
  exact List.map_replicate.symm

theorem reads_of_isFinite (hv : v.isFinite) (hn : v.size = n) : ∃ x : Fin n → 𝕜, v.Reads x := by
  have hmem : v.toList ∈ Set.range (List.map (number : 𝕜 → K)) := by
    rw [Set.range_list_map]
    intro a ha
    obtain ⟨z, rfl⟩ := exists_number 𝕜 (List.all_eq_true.1 hv a ha)
    exact ⟨z, rfl⟩
  obtain ⟨xs, hxs⟩ := hmem
  have hlength : xs.length = n := by rw [← hn, ← List.length_map (number : 𝕜 → K), hxs]; rfl
  subst hlength
  exact ⟨xs.get, by rw [Reads, List.ofFn_get]; exact hxs.symm⟩

variable (𝕜) in
/-- A zero that has an imaginary part where a vector has one. -/
theorem zeroAs_isReal (v : Vec K) : Entry.zeroAs v.isReal = (number (0 : 𝕜) : K) := by
  cases v with
  | nil => exact zero_eq 𝕜
  | cons x v =>
    have hreal : Vec.isReal (x :: v) = Entry.isReal x := by
      have hv : ∀ y ∈ v, Entry.isReal y = Entry.isReal x := fun y _ => isReal_eq y x
      cases hx : Entry.isReal x with
      | true => exact List.all_eq_true.2 fun y hy => (isReal_eq y x).trans hx
      | false => exact Bool.and_eq_false_iff.2 (.inl hx)
    rw [hreal]
    exact ExactEntry.zeroAs x

end Vec

/-! ## Dense matrices -/

/-- The entries of a matrix are the given numbers. -/
structure Dense.Reads {m n : Nat} (A : Dense K) (M : FieldMatrix 𝕜 m n) : Prop where
  cols : A.cols = n
  rows : A.rows = List.ofFn fun i => (Vec.numbers (List.ofFn (M i)) : Vec K).toList

namespace Dense

variable {m n : Nat} {A : Dense K} {M : FieldMatrix 𝕜 m n}

theorem Reads.height (hA : A.Reads M) : A.height = m := by
  rw [Grid.height, hA.rows, List.length_ofFn]

theorem Reads.inj {N : FieldMatrix 𝕜 m n} (hM : A.Reads M) (hN : A.Reads N) : M = N := by
  have hrows := List.ofFn_injective (hM.rows.symm.trans hN.rows)
  funext i
  have hrow : (Vec.numbers (List.ofFn (M i)) : Vec K) = Vec.numbers (List.ofFn (N i)) :=
    congrFun hrows i
  exact Vec.Reads.inj (v := (Vec.numbers (List.ofFn (M i)) : Vec K)) rfl hrow

theorem Reads.isFinite (hA : A.Reads M) : A.isFinite = true := by
  refine List.all_eq_true.2 fun r hr => ?_
  rw [hA.rows] at hr
  obtain ⟨i, rfl⟩ := List.mem_ofFn.1 hr
  exact Vec.Reads.isFinite (x := M i) rfl

theorem reads_of_isFinite (hA : A.isFinite) (hm : A.height = m) (hn : A.cols = n) :
    ∃ M : FieldMatrix 𝕜 m n, A.Reads M := by
  subst hm hn
  have hrow : ∀ i : Fin A.height, ∃ x : Fin A.cols → 𝕜, (Vec.ofList A.rows[i]).Reads x := by
    intro i
    have hi : A.rows[i] ∈ A.rows := List.getElem_mem i.2
    exact Vec.reads_of_isFinite (List.all_eq_true.1 hA _ hi) (A.rect _ hi)
  choose M hM using hrow
  refine ⟨M, rfl, ?_⟩
  apply List.ext_getElem (by simp [Grid.height])
  intro i hi _
  rw [List.getElem_ofFn]
  exact hM ⟨i, hi⟩

theorem Reads.columns (hA : A.Reads M) (d : K) :
    A.columns d = List.ofFn fun j => (Vec.numbers (List.ofFn fun i => M i j) : Vec K).toList := by
  unfold Grid.columns
  rw [hA.cols, hA.rows]
  apply List.ext_getElem (by simp)
  intro j hj _
  rw [List.getElem_map, List.getElem_range, List.getElem_ofFn, List.map_ofFn]
  refine List.ext_getElem (by simp [Vec.numbers, Vec.ofList, Vec.toList]) fun i hi _ => ?_
  have hj' : j < n := by simpa using hj
  simp [Vec.numbers, Vec.ofList, Vec.toList, List.getD_eq_getElem?_getD, hj']

theorem Reads.gram (hA : A.Reads M) : (Dense.gram A).Reads (Mᵀ * M) := by
  have hcolumns := hA.columns Entry.zero
  refine ⟨?_, ?_⟩
  · change (Grid.columns A Entry.zero).length = n
    rw [hcolumns, List.length_ofFn]
  · change (Grid.columns A Entry.zero).map _ = _
    rw [hcolumns, List.map_ofFn]
    congr 1
    funext i
    rw [Function.comp_apply, List.map_ofFn]
    refine Eq.trans (congrArg List.ofFn (funext fun j => ?_)) (Vec.toList_numbers _).symm
    exact Vec.Reads.dot (x := fun k => M k i) (y := fun k => M k j) rfl rfl

theorem Reads.apply (hA : A.Reads M) {v : Vec K} {x : Fin n → 𝕜} (hv : v.Reads x) :
    (Dense.apply A v).Reads (M *ᵥ x) := by
  rw [Vec.reads_iff]
  change A.rows.map _ = _
  rw [hA.rows, List.map_ofFn]
  congr 1
  funext i
  exact Vec.Reads.dot (x := M i) rfl hv

theorem Reads.applyTranspose (hA : A.Reads M) {v : Vec K} {f : Fin m → 𝕜} (hv : v.Reads f) :
    (Dense.applyTranspose A v).Reads (Mᵀ *ᵥ f) := by
  rw [Vec.reads_iff]
  change (Grid.columns A Entry.zero).map _ = _
  rw [hA.columns, List.map_ofFn]
  congr 1
  funext j
  exact Vec.Reads.dot (x := fun k => M k j) rfl hv

theorem Reads.get (hA : A.Reads M) (d : K) (i : Fin m) (j : Fin n) :
    A.get d i j = number (M i j) := by
  simp [Grid.get, hA.rows, Vec.toList_numbers, List.getD_eq_getElem?_getD]

theorem Reads.diagonal {N : FieldMatrix 𝕜 n n} (hA : A.Reads N) :
    (Dense.diagonal A).Reads fun i => N i i := by
  rw [Vec.reads_iff]
  change List.map _ (List.range (min A.height A.cols)) = _
  rw [hA.height, hA.cols, min_self]
  apply List.ext_getElem (by simp)
  intro i hi _
  have hi' : i < n := by simpa using hi
  rw [List.getElem_map, List.getElem_range, List.getElem_ofFn]
  exact hA.get _ ⟨i, hi'⟩ ⟨i, hi'⟩

theorem Reads.addDiagonal {N : FieldMatrix 𝕜 n n} (hA : A.Reads N) {v : Vec K} {d : Fin n → 𝕜}
    (hv : v.Reads d) : (Dense.addDiagonal A v).Reads (N.addDiagonal d) := by
  have hd : ∀ i (hi : i < n), v.toList.getD i Entry.zero = number (d ⟨i, hi⟩) := by
    intro i hi
    rw [Vec.reads_iff.1 hv]
    simp [List.getD_eq_getElem?_getD, hi]
  refine ⟨hA.cols, ?_⟩
  change A.rows.mapIdx _ = _
  rw [hA.rows]
  apply List.ext_getElem (by simp)
  intro i hi _
  rw [List.getElem_mapIdx, List.getElem_ofFn, List.getElem_ofFn, Vec.toList_numbers,
    Vec.toList_numbers]
  apply List.ext_getElem (by simp)
  intro j hj _
  have hi' : i < n := by simpa using hi
  rw [List.getElem_modify, List.getElem_ofFn, List.getElem_ofFn, FieldMatrix.addDiagonal_apply]
  split
  next hij =>
    subst hij
    rw [if_pos rfl, ← ExactEntry.add, ← hd i hi']
  next hij => rw [if_neg (by simpa using hij), add_zero]

end Dense

/-! ## Sparse matrices

A place that holds no entry adds nothing, so a sparse matrix that is zero there computes what the
dense matrix with its entries computes. -/

/-- The entries of a matrix are the given numbers, and it is zero where it holds none. -/
structure Sparse.Reads {m n : Nat} (A : Sparse K) (M : FieldMatrix 𝕜 m n) : Prop where
  zero : A.zero = number (0 : 𝕜)
  dense : (Sparse.toDense A).Reads M

namespace Sparse

variable {m n : Nat} {A : Sparse K} {M : FieldMatrix 𝕜 m n}

theorem Reads.height (hA : A.Reads M) : A.height = m := by
  rw [← hA.dense.height]
  simp [Sparse.height, Sparse.toDense, Grid.height, Grid.map]

theorem Reads.cols (hA : A.Reads M) : A.cols = n := hA.dense.cols

theorem reads_of_isFinite (hzero : A.zero = number (0 : 𝕜)) (hA : A.isFinite) (hm : A.height = m)
    (hn : A.cols = n) : ∃ M : FieldMatrix 𝕜 m n, A.Reads M := by
  have hfinite : Dense.isFinite (Sparse.toDense A) = true := by
    refine List.all_eq_true.2 fun r hr => List.all_eq_true.2 fun x hx => ?_
    obtain ⟨s, hs, rfl⟩ := List.mem_map.1 hr
    obtain ⟨o, ho, rfl⟩ := List.mem_map.1 hx
    cases o with
    | none =>
      rw [Option.getD_none, hzero]
      exact isFinite_number 0
    | some z => exact List.all_eq_true.1 (List.all_eq_true.1 hA s hs) _ ho
  have hheight : (Sparse.toDense A).height = m := (List.length_map _).trans hm
  obtain ⟨M, hM⟩ := Dense.reads_of_isFinite hfinite hheight hn
  exact ⟨M, hzero, hM⟩

variable (𝕜) in
/-- Imaginary parts are added to all entries or to none. -/
theorem ofPlaces_eq (places : Grid (Option K)) :
    Sparse.ofPlaces places = ⟨places, number (0 : 𝕜)⟩ := by
  unfold Sparse.ofPlaces
  split
  next => rw [zero_eq 𝕜]
  next hmixed =>
    -- some entry has an imaginary part, so all have
    have hreal : ∀ x : K, Entry.isReal x = false := by
      intro x
      by_contra hx
      refine hmixed (List.all_eq_true.2 fun r _ => List.all_eq_true.2 fun o _ => ?_)
      cases o with
      | none => rfl
      | some y => exact (isReal_eq y x).trans (by simpa using hx)
    have hwiden : places.map (·.map Entry.widen) = places := by
      have hid : (fun o : Option K => o.map Entry.widen) = id := by
        funext o
        cases o with
        | none => rfl
        | some x => simp [Entry.widen, hreal x]
      simp [Grid.map, hid]
    rw [hwiden, ← hreal (number (0 : 𝕜)), ExactEntry.zeroAs]

theorem products_eq_common (r : List (Option K)) (v : List K) :
    products r v = common r (v.map some) := by
  simp only [products, common, List.zip_map_right, List.filterMap_map]
  congr 1
  funext ⟨o, x⟩
  cases o <;> rfl

theorem foldl_common (a : 𝕜) {r s : List (Option K)} {xs ys : List 𝕜}
    (hr : r.map (·.getD (number (0 : 𝕜))) = xs.map number)
    (hs : s.map (·.getD (number (0 : 𝕜))) = ys.map number) :
    (common r s).foldl (· + ·) (number a) = number (a + (List.zipWith (· * ·) xs ys).sum) := by
  induction r generalizing a xs s ys with
  | nil =>
    obtain rfl : xs = [] := List.map_eq_nil_iff.1 hr.symm
    simp [common]
  | cons o r ih =>
    obtain ⟨x, xs, rfl, ho, hr⟩ := List.map_eq_cons_iff.1 hr.symm
    cases s with
    | nil =>
      obtain rfl : ys = [] := List.map_eq_nil_iff.1 hs.symm
      simp [common]
    | cons p s =>
      obtain ⟨y, ys, rfl, hp, hs⟩ := List.map_eq_cons_iff.1 hs.symm
      rw [List.zipWith_cons_cons, List.sum_cons, ← add_assoc, ← ih (a + x * y) hr.symm hs.symm]
      -- an entry that is missing on either side stands for a product of zero
      cases o with
      | none =>
        have hx : x = 0 := number_injective ho
        rw [hx, zero_mul, add_zero]
        rfl
      | some z =>
        obtain rfl : number x = z := ho
        cases p with
        | none =>
          have hy : y = 0 := number_injective hp
          rw [hy, mul_zero, add_zero]
          rfl
        | some w =>
          obtain rfl : number y = w := hp
          rw [← ExactEntry.add, ← ExactEntry.mul]
          rfl

theorem Reads.columns (hA : A.Reads M) :
    (Grid.columns A.places none).map (List.map (·.getD (number (0 : 𝕜)))) =
      List.ofFn fun j => (Vec.numbers (List.ofFn fun i => M i j) : Vec K).toList := by
  rw [← hA.dense.columns (number (0 : 𝕜)), Sparse.toDense, hA.zero]
  exact (Grid.columns_map _ A.places none).symm

theorem common_sum {r s : List (Option K)} {x y : Fin m → 𝕜}
    (hr : r.map (·.getD (number (0 : 𝕜))) = (Vec.numbers (List.ofFn x)).toList)
    (hs : s.map (·.getD (number (0 : 𝕜))) = (Vec.numbers (List.ofFn y)).toList) :
    (Vec.ofList (common r s)).sum = number (∑ i, x i * y i) := by
  have hsum := foldl_common 0 hr hs
  rw [Vec.zipWith_ofFn, List.sum_ofFn, zero_add] at hsum
  rw [Vec.sum, zero_eq 𝕜]
  exact hsum

theorem Reads.gram (hA : A.Reads M) : (Sparse.gram A).Reads (Mᵀ * M) := by
  refine ⟨hA.zero, ?_, ?_⟩
  · change (Grid.columns A.places none).length = n
    rw [← List.length_map, hA.columns, List.length_ofFn]
  · change List.map _ (List.map _ (Grid.columns A.places none)) = _
    rw [List.map_map]
    refine Vec.map_eq_ofFn hA.columns fun r i hr => ?_
    rw [Function.comp_apply, List.map_map, Vec.toList_numbers]
    refine Vec.map_eq_ofFn hA.columns fun s j hs => ?_
    have hsum := common_sum hr hs
    simp only [Function.comp_apply]
    split
    next hnone =>
      rw [hnone] at hsum
      exact hA.zero.trans ((zero_eq 𝕜).symm.trans hsum)
    next => exact hsum

/-- The sum of the products of a list of places with a vector. -/
theorem Reads.foldl_products (hA : A.Reads M) {k : Nat} {r : List (Option K)} {v : Vec K}
    {x y : Fin k → 𝕜} (hr : r.map (·.getD (number (0 : 𝕜))) = (Vec.numbers (List.ofFn x)).toList)
    (hv : v.Reads y) :
    (products r v.toList).foldl (· + ·) (A.zero + Entry.zeroAs v.isReal) =
      number (∑ i, x i * y i) := by
  have hstart : (A.zero + Entry.zeroAs v.isReal : K) = number (0 : 𝕜) := by
    rw [hA.zero, v.zeroAs_isReal 𝕜, ExactEntry.add, add_zero]
  have hside : (v.toList.map some).map (·.getD (number (0 : 𝕜))) = (List.ofFn y).map number := by
    rw [List.map_map]
    exact (List.map_id _).trans hv
  rw [hstart, products_eq_common, foldl_common 0 hr hside, Vec.zipWith_ofFn, List.sum_ofFn,
    zero_add]

theorem Reads.apply (hA : A.Reads M) {v : Vec K} {x : Fin n → 𝕜} (hv : v.Reads x) :
    (Sparse.apply A v).Reads (M *ᵥ x) := by
  have hrows : A.places.rows.map (List.map (·.getD (number (0 : 𝕜)))) =
      List.ofFn fun i => (Vec.numbers (List.ofFn (M i)) : Vec K).toList := by
    rw [← hA.dense.rows, Sparse.toDense, hA.zero]
    rfl
  rw [Vec.reads_iff]
  change List.map _ A.places.rows = _
  exact Vec.map_eq_ofFn hrows fun r i hr => hA.foldl_products hr hv

theorem Reads.applyTranspose (hA : A.Reads M) {v : Vec K} {f : Fin m → 𝕜} (hv : v.Reads f) :
    (Sparse.applyTranspose A v).Reads (Mᵀ *ᵥ f) := by
  rw [Vec.reads_iff]
  change List.map _ (Grid.columns A.places none) = _
  exact Vec.map_eq_ofFn hA.columns fun r j hr => hA.foldl_products hr hv

theorem Reads.diagonal {N : FieldMatrix 𝕜 n n} (hA : A.Reads N) :
    (Sparse.diagonal A).Reads fun i => N i i := by
  have hdiagonal : (A.places.map (·.getD (number (0 : 𝕜)))).diagonal (number (0 : 𝕜)) =
      (A.places.diagonal none).map (·.getD (number (0 : 𝕜))) :=
    Grid.diagonal_map _ A.places none
  have hdense := hA.dense.diagonal
  unfold Dense.diagonal Sparse.toDense at hdense
  rw [hA.zero, zero_eq 𝕜, hdiagonal] at hdense
  unfold Sparse.diagonal
  rw [hA.zero]
  exact hdense

theorem Reads.addDiagonal {N : FieldMatrix 𝕜 n n} (hA : A.Reads N) {v : Vec K} {d : Fin n → 𝕜}
    (hv : v.Reads d) : (Sparse.addDiagonal A v).Reads (N.addDiagonal d) := by
  have hdense := hA.dense.addDiagonal hv
  rw [Sparse.addDiagonal, ofPlaces_eq 𝕜]
  refine ⟨rfl, hdense.cols, ?_⟩
  rw [← hdense.rows, Sparse.toDense, Dense.addDiagonal, Sparse.toDense, hA.zero, ← zero_eq 𝕜]
  exact Grid.map_mapDiagonal (g := fun o : Option K => o.getD Entry.zero) (fun _ _ => rfl) A.places

end Sparse

/-! ## Matrices -/

namespace Matrix

/-- The entries of a matrix are the given numbers. -/
def Reads {m n : Nat} : Matrix Exact K → FieldMatrix 𝕜 m n → Prop
  | dense A, M => A.Reads M
  | sparse A, M => A.Reads M
  | free _, _ => False

variable {m n : Nat} {A : Matrix Exact K} {M : FieldMatrix 𝕜 m n}

theorem Reads.height (hA : A.Reads M) : A.height = m := by
  cases A with
  | dense A => exact Dense.Reads.height hA
  | sparse A => exact Sparse.Reads.height hA
  | free A => exact hA.elim

theorem Reads.cols (hA : A.Reads M) : A.cols = n := by
  cases A with
  | dense A => exact Dense.Reads.cols hA
  | sparse A => exact Sparse.Reads.cols hA
  | free A => exact hA.elim

/-- A matrix reads as one matrix of numbers only. -/
theorem Reads.inj {N : FieldMatrix 𝕜 m n} (hM : A.Reads M) (hN : A.Reads N) : M = N := by
  cases A with
  | dense A => exact Dense.Reads.inj hM hN
  | sparse A => exact hM.dense.inj hN.dense
  | free A => exact hM.elim

theorem Reads.gram (hA : A.Reads M) : A.gram.Reads (Mᵀ * M) := by
  cases A with
  | dense A => exact Dense.Reads.gram hA
  | sparse A => exact Sparse.Reads.gram hA
  | free A => exact hA.elim

/-- A product with a matrix, which leaves the workspace alone. -/
theorem Reads.apply (hA : A.Reads M) {v : Vec K} {x : Fin n → 𝕜} (hv : v.Reads x) :
    ∃ y : Vec K, y.Reads (M *ᵥ x) ∧ ∀ {σ : Type} (F : Vec K → Work σ Exact K (Vec K))
      (w : Workspace σ Exact K), (A.apply F v).eval w = (.ok y, w) := by
  have hsize : ¬v.size ≠ A.cols := by rw [hv.size, hA.cols, not_not]
  cases A with
  | dense A =>
    refine ⟨_, Dense.Reads.apply hA hv, fun F w => ?_⟩
    unfold Matrix.apply
    rw [if_neg hsize]
    rfl
  | sparse A =>
    refine ⟨_, Sparse.Reads.apply hA hv, fun F w => ?_⟩
    unfold Matrix.apply
    rw [if_neg hsize]
    rfl
  | free A => exact hA.elim

/-- A product with the transposed matrix; it is that of the numbers where the vector has finite
entries. -/
theorem Reads.applyTranspose (hA : A.Reads M) {v : Vec K} (hv : v.size = m) :
    ∃ g, A.applyTranspose v = .ok g ∧ ∀ f : Fin m → 𝕜, v.Reads f → g.Reads (Mᵀ *ᵥ f) := by
  have hsize : ¬v.size ≠ A.height := by rw [hv, hA.height, not_not]
  unfold Matrix.applyTranspose
  rw [if_neg hsize]
  cases A with
  | dense A => exact ⟨_, rfl, fun f hf => Dense.Reads.applyTranspose hA hf⟩
  | sparse A => exact ⟨_, rfl, fun f hf => Sparse.Reads.applyTranspose hA hf⟩
  | free A => exact hA.elim

theorem Reads.diagonal {N : FieldMatrix 𝕜 n n} (hA : A.Reads N) :
    A.diagonal.Reads fun i => N i i := by
  cases A with
  | dense A => exact Dense.Reads.diagonal hA
  | sparse A => exact Sparse.Reads.diagonal hA
  | free A => exact hA.elim

theorem Reads.addDiagonal {N : FieldMatrix 𝕜 n n} (hA : A.Reads N) {v : Vec K} {d : Fin n → 𝕜}
    (hv : v.Reads d) : (A.addDiagonal v).Reads (N.addDiagonal d) := by
  cases A with
  | dense A => exact Dense.Reads.addDiagonal hA hv
  | sparse A => exact Sparse.Reads.addDiagonal hA hv
  | free A => exact hA.elim

omit [RCLike 𝕜] [ExactEntry 𝕜 K] in
/-- Only square matrices are shifted. -/
theorem isSquare_of_shift {A B : Matrix Exact K} {a : Exact} (h : A.shift a = .ok B) :
    A.height = A.cols := by
  unfold shift at h
  split at h
  next hsquare => simpa [isSquare] using hsquare
  next => cases h

theorem Reads.shift {N : FieldMatrix 𝕜 n n} (hA : A.Reads N) {a : ℝ} {B : Matrix Exact K}
    (h : A.shift (real a) = .ok B) : B.Reads (N.addDiagonal fun _ => (a : 𝕜)) := by
  have hvector : (Vec.replicate A.height (Entry.ofReal (real a) : K)).Reads
      fun _ : Fin n => (a : 𝕜) := by
    rw [hA.height, ExactEntry.ofReal]
    exact Vec.reads_replicate n (a : 𝕜)
  have hsum := hA.addDiagonal hvector
  unfold Matrix.shift at h
  split at h
  next =>
    cases A with
    | dense A | sparse A =>
      cases h
      exact hsum
    | free A => exact hA.elim
  next => cases h

end Matrix

end RootFinding
