import RootFinding.Jacobian
import RootFinding.Number

/-!
# Sizes and kinds of entries

What vector and matrix arithmetic says about sizes, and about a kind of entries that it does not
leave, such as the real ones.

* `Entry.Closed P`: arithmetic on entries of the kind `P` gives entries of that kind. All entries
  are a kind of their own, and so are the real ones of double precision.
* `Vec.Fits P n`, `Grid.Fits P h w`, `Matrix.Fits P h w`: the sizes are as given and the entries
  are of the kind `P`. Every operation that the solvers use has one lemma.
-/

namespace RootFinding

/-! ## Kinds of entries -/

/-- Arithmetic does not leave the kind `P`, which holds no entry with an imaginary part or every
multiple of the imaginary unit. -/
structure Entry.Closed {R K : Type} [Scalar R] [Entry R K] (P : K → Prop) : Prop where
  ofReal (a : R) : P (Entry.ofReal a)
  add {x y : K} : P x → P y → P (x + y)
  sub {x y : K} : P x → P y → P (x - y)
  mul {x y : K} : P x → P y → P (x * y)
  div {x y : K} : P x → P y → P (x / y)
  neg {x : K} : P x → P (-x)
  conj {x : K} : P x → P (Entry.conj x)
  maximum {x y : K} : P x → P y → P (Entry.maximum x y)
  imaginary {x : K} : P x → Entry.isReal x = false → ∀ a, P (Entry.imaginary a)

section Kinds

variable {R K : Type} [Scalar R] [Entry R K] {P : K → Prop}

theorem Entry.closed_true : Entry.Closed (fun _ : K => True) := by
  constructor <;> intros <;> trivial

theorem Entry.Closed.zero (hP : Entry.Closed P) : P Entry.zero := hP.ofReal _

theorem Entry.Closed.one (hP : Entry.Closed P) : P Entry.one := hP.ofReal _

/-- Zero has the imaginary part that is asked for if it has to be like an entry of the kind. -/
theorem Entry.Closed.zeroAs (hP : Entry.Closed P) {real : Bool}
    (h : real = false → ∃ x, P x ∧ Entry.isReal x = false) : P (Entry.zeroAs real) := by
  cases real with
  | true => exact hP.zero
  | false =>
    obtain ⟨x, hx, hreal⟩ := h rfl
    exact hP.imaginary hx hreal _

theorem Entry.Closed.widen (hP : Entry.Closed P) (h : ∃ x, P x ∧ Entry.isReal x = false) {x : K}
    (hx : P x) : P (Entry.widen x) := by
  rcases h with ⟨y, hy, hreal⟩
  unfold Entry.widen
  split
  · exact hP.add hx (hP.imaginary hy hreal _)
  · exact hx

end Kinds

theorem Number.isReal_iff {x : Number} : Entry.isReal x = true ↔ ∃ a, x = real a := by
  cases x with
  | real a => exact ⟨fun _ => ⟨a, rfl⟩, fun _ => rfl⟩
  | complex a b => exact ⟨fun h => (Bool.noConfusion h), fun ⟨_, h⟩ => (Number.noConfusion h)⟩

/-- The real numbers of double precision are a kind of their own. -/
theorem Number.closed_isReal : Entry.Closed (fun x : Number => Entry.isReal x = true) := by
  constructor
  case ofReal => exact fun _ => rfl
  case imaginary =>
    intro x hx hreal
    rw [hx] at hreal
    cases hreal
  case neg | conj =>
    intro x hx
    obtain ⟨a, rfl⟩ := isReal_iff.1 hx
    rfl
  all_goals
    intro x y hx hy
    obtain ⟨a, rfl⟩ := isReal_iff.1 hx
    obtain ⟨b, rfl⟩ := isReal_iff.1 hy
    rfl

/-! ## Vectors -/

/-- A vector of `n` entries of the kind `P`. -/
structure Vec.Fits {α : Type} (P : α → Prop) (n : Nat) (v : Vec α) : Prop where
  size : v.size = n
  all : ∀ x ∈ v.toList, P x

namespace Vec

section Lists

variable {α β γ : Type} {P : α → Prop} {Q : β → Prop} {T : γ → Prop} {n : Nat} {u v : Vec α}
  {w : Vec β}

theorem Fits.map {f : α → β} (hv : v.Fits P n) (hf : ∀ x, P x → Q (f x)) : (v.map f).Fits Q n := by
  refine ⟨(List.length_map f).trans hv.size, fun y hy => ?_⟩
  obtain ⟨x, hx, rfl⟩ := List.mem_map.1 hy
  exact hf x (hv.all x hx)

theorem zipWith_all {f : α → β → γ} (hv : ∀ x ∈ v.toList, P x) (hw : ∀ y ∈ w.toList, Q y)
    (hf : ∀ x y, P x → Q y → T (f x y)) : ∀ z ∈ (v.zipWith f w).toList, T z := by
  intro z hz
  obtain ⟨i, hi, rfl⟩ := List.mem_iff_getElem.1 hz
  have hlength : i < min v.toList.length w.toList.length := List.length_zipWith ▸ hi
  have hv' : v.toList[i] ∈ v.toList := List.getElem_mem (by omega)
  have hw' : w.toList[i] ∈ w.toList := List.getElem_mem (by omega)
  exact (List.getElem_zipWith (h := hi)) ▸ hf _ _ (hv _ hv') (hw _ hw')

theorem Fits.zipWith {f : α → β → γ} (hv : v.Fits P n) (hw : w.Fits Q n)
    (hf : ∀ x y, P x → Q y → T (f x y)) : (v.zipWith f w).Fits T n := by
  refine ⟨?_, zipWith_all hv.all hw.all hf⟩
  have h : (List.zipWith f v w).length = min v.size w.size := List.length_zipWith
  rw [hv.size, hw.size, Nat.min_self] at h
  exact h

theorem fits_replicate {x : α} (hx : P x) : (Vec.replicate n x).Fits P n :=
  ⟨List.length_replicate, fun y hy => by rw [List.eq_of_mem_replicate hy]; exact hx⟩

theorem Fits.mono {P' : α → Prop} (hv : v.Fits P n) (h : ∀ x, P x → P' x) : v.Fits P' n :=
  ⟨hv.size, fun x hx => h x (hv.all x hx)⟩

/-- An entry of a vector, or an entry of the kind beyond its end. -/
theorem Fits.getD (hv : v.Fits P n) {d : α} (hd : P d) (i : Nat) : P (v.toList.getD i d) := by
  rw [List.getD_eq_getElem?_getD]
  rcases h : v.toList[i]? with _ | x
  · exact hd
  · exact hv.all x (List.mem_of_getElem? h)

theorem Fits.update (hv : v.Fits P n) {f : α → α} (hf : ∀ x, P x → P (f x)) (i : Nat) :
    (v.update i f).Fits P n := by
  have hlength : (List.modify v.toList i f).length = v.size := List.length_modify ..
  refine ⟨hlength.trans hv.size, fun x hx => ?_⟩
  obtain ⟨j, hj, rfl⟩ : ∃ j, ∃ hj : j < (List.modify v.toList i f).length,
    (List.modify v.toList i f)[j] = x := List.mem_iff_getElem.1 hx
  rw [List.getElem_modify]
  have hentry := hv.all _ (List.getElem_mem (hlength ▸ hj))
  split
  · exact hf _ hentry
  · exact hentry

theorem align_of_size {f : α → β → γ} (h : v.size = w.size) :
    Vec.align f v w = .ok (v.zipWith f w) := if_pos h

theorem Fits.align {f : α → β → γ} (hv : v.Fits P n) (hw : w.Fits Q n)
    (hf : ∀ x y, P x → Q y → T (f x y)) : ∃ z, Vec.align f v w = .ok z ∧ z.Fits T n :=
  ⟨_, align_of_size (hv.size.trans hw.size.symm), hv.zipWith hw hf⟩

end Lists

variable {R K : Type} [Scalar R] [Entry R K] {P : K → Prop} {n : Nat} {u v : Vec K}

theorem Fits.add (hP : Entry.Closed P) (hu : u.Fits P n) (hv : v.Fits P n) : (u + v).Fits P n :=
  hu.zipWith hv fun _ _ => hP.add

theorem Fits.sub (hP : Entry.Closed P) (hu : u.Fits P n) (hv : v.Fits P n) : (u - v).Fits P n :=
  hu.zipWith hv fun _ _ => hP.sub

theorem Fits.neg (hP : Entry.Closed P) (hv : v.Fits P n) : (-v).Fits P n :=
  hv.map fun _ => hP.neg

theorem Fits.smul (hP : Entry.Closed P) (a : R) (hv : v.Fits P n) : (a • v : Vec K).Fits P n :=
  hv.map fun _ => hP.mul (hP.ofReal a)

theorem Fits.divideBy (hP : Entry.Closed P) (a : R) (hv : v.Fits P n) :
    (v.divideBy a).Fits P n :=
  hv.map fun _ hx => hP.div hx (hP.ofReal a)

theorem Fits.scale (hP : Entry.Closed P) {a : K} (ha : P a) (hv : v.Fits P n) :
    (Vec.scale a v).Fits P n :=
  hv.map fun _ => hP.mul ha

theorem fits_zeros (hP : Entry.Closed P) : (Vec.zeros n : Vec K).Fits P n :=
  fits_replicate hP.zero

theorem Fits.zerosLike (hP : Entry.Closed P) (hv : v.Fits P n) : v.zerosLike.Fits P n :=
  hv.map fun x hx => hP.zeroAs fun hreal => ⟨x, hx, hreal⟩

theorem fits_ofReals (hP : Entry.Closed P) {x : Vec R} (hx : x.size = n) :
    (Vec.ofReals x : Vec K).Fits P n :=
  Fits.map (P := fun _ => True) ⟨hx, fun _ _ => trivial⟩ fun a _ => hP.ofReal a

theorem Fits.realPart (hP : Entry.Closed P) (hv : v.Fits P n) : v.realPart.Fits P n :=
  hv.map fun _ _ => hP.ofReal _

theorem Fits.widen (hP : Entry.Closed P) (h : ∃ x, P x ∧ Entry.isReal x = false)
    (hv : v.Fits P n) : v.widen.Fits P n :=
  hv.map fun _ => hP.widen h

theorem Fits.foldl_add (hP : Entry.Closed P) (hv : v.Fits P n) {a : K} (ha : P a) :
    P (List.foldl (· + ·) a v.toList) := by
  have hall := hv.all
  generalize v.toList = xs at hall
  induction xs generalizing a with
  | nil => exact ha
  | cons x xs ih =>
    exact ih (hP.add ha (hall x List.mem_cons_self)) fun y hy => hall y (List.mem_cons_of_mem x hy)

theorem Fits.sum (hP : Entry.Closed P) (hv : v.Fits P n) : P v.sum := hv.foldl_add hP hP.zero

theorem Fits.dot (hP : Entry.Closed P) (hu : u.Fits P n) (hv : v.Fits P n) : P (u.dot v) :=
  (hu.zipWith hv (T := P) fun _ _ => hP.mul).sum hP

theorem Fits.inner (hP : Entry.Closed P) (hu : u.Fits P n) (hv : v.Fits P n) : P (u.inner v) :=
  (hu.zipWith hv (T := P) fun _ _ hx hy => hP.mul (hP.conj hx) hy).sum hP

/-- A vector that is not real has an entry that is not. -/
theorem Fits.exists_not_isReal (hv : v.Fits P n) (h : v.isReal = false) :
    ∃ x, P x ∧ Entry.isReal x = false := by
  obtain ⟨x, hx, hreal⟩ := List.all_eq_false.1 h
  exact ⟨x, hv.all x hx, by simpa using hreal⟩

end Vec

/-! ## Rectangular arrays -/

/-- An array of the given height and number of columns with elements of the kind `P`. -/
structure Grid.Fits {α : Type} (P : α → Prop) (h w : Nat) (A : Grid α) : Prop where
  height : A.height = h
  cols : A.cols = w
  all : ∀ r ∈ A.rows, ∀ x ∈ r, P x

namespace Grid

variable {α β γ : Type} {P : α → Prop} {Q : β → Prop} {h w : Nat} {A : Grid α} {d : α}

theorem Fits.row (hA : A.Fits P h w) {r : List α} (hr : r ∈ A.rows) : (Vec.ofList r).Fits P w :=
  ⟨(A.rect r hr).trans hA.cols, hA.all r hr⟩

theorem Fits.get (hA : A.Fits P h w) (hd : P d) (i j : Nat) : P (A.get d i j) := by
  have hrow : ∀ x ∈ A.rows.getD i [], P x := by
    rw [List.getD_eq_getElem?_getD]
    rcases hi : A.rows[i]? with _ | r
    · simp
    · exact hA.all r (List.mem_of_getElem? hi)
  exact Vec.Fits.getD (v := Vec.ofList _) ⟨rfl, hrow⟩ hd j

theorem Fits.map (hA : A.Fits P h w) {f : α → β} (hf : ∀ x, P x → Q (f x)) :
    (A.map f).Fits Q h w := by
  refine ⟨(List.length_map _).trans hA.height, hA.cols, fun r hr => ?_⟩
  obtain ⟨s, hs, rfl⟩ := List.mem_map.1 hr
  exact ((hA.row hs).map hf).all

theorem fits_ofFn {f : Nat → Nat → α} (hf : ∀ i j, P (f i j)) : (ofFn h w f).Fits P h w := by
  refine ⟨by simp [ofFn, Grid.height], rfl, fun r hr x hx => ?_⟩
  obtain ⟨i, -, rfl⟩ := List.mem_map.1 hr
  obtain ⟨j, -, rfl⟩ := List.mem_map.1 hx
  exact hf i j

theorem fits_table {xs : List β} {ys : List γ} {f : β → γ → α} (hxs : xs.length = h)
    (hys : ys.length = w) (hf : ∀ x ∈ xs, ∀ y ∈ ys, P (f x y)) : (table xs ys f).Fits P h w := by
  refine ⟨(List.length_map _).trans hxs, hys, fun r hr z hz => ?_⟩
  obtain ⟨x, hx, rfl⟩ := List.mem_map.1 hr
  obtain ⟨y, hy, rfl⟩ := List.mem_map.1 hz
  exact hf x hx y hy

theorem length_columns : (A.columns d).length = A.cols := by simp [columns]

theorem Fits.column (hA : A.Fits P h w) (hd : P d) {c : List α} (hc : c ∈ A.columns d) :
    (Vec.ofList c).Fits P h := by
  obtain ⟨j, -, rfl⟩ := List.mem_map.1 hc
  refine ⟨(List.length_map _).trans hA.height, fun x hx => ?_⟩
  obtain ⟨r, hr, rfl⟩ := List.mem_map.1 hx
  exact (hA.row hr).getD hd j

theorem Fits.transpose (hA : A.Fits P h w) (hd : P d) : (A.transpose d).Fits P w h :=
  ⟨length_columns.trans hA.cols, hA.height, fun _ hc => (hA.column hd hc).all⟩

theorem Fits.diagonal (hA : A.Fits P h w) (hd : P d) {x : α} (hx : x ∈ A.diagonal d) : P x := by
  obtain ⟨i, -, rfl⟩ := List.mem_map.1 hx
  exact hA.get hd i i

theorem Fits.mapDiagonal (hA : A.Fits P h w) {f : Nat → α → α} (hf : ∀ i x, P x → P (f i x)) :
    (A.mapDiagonal f).Fits P h w := by
  refine ⟨List.length_mapIdx.trans hA.height, hA.cols, fun r hr => ?_⟩
  obtain ⟨i, hi, rfl⟩ := List.mem_mapIdx.1 hr
  exact ((hA.row (List.getElem_mem hi)).update (hf i) i).all

end Grid

/-! ## Matrices -/

section Sizes

variable {R K : Type} {P : K → Prop} {h w : Nat}

/-- Present elements are of the kind `P`. -/
def Present {α : Type} (P : α → Prop) (x : Option α) : Prop := ∀ y ∈ x, P y

/-- An operator of the given sizes with entries of the kind `P`. -/
def Operator.Fits (P : K → Prop) (h w : Nat) : Operator R K → Prop
  | concrete A => A.Fits P h w
  | derivative _ x f0 => x.size = w ∧ f0.Fits P h
  | shifted A _ => A.Fits P h w ∧ h = w

theorem Operator.Fits.sizes {A : Operator R K} (hA : A.Fits P h w) :
    A.height = h ∧ A.cols = w := by
  induction A with
  | concrete A => exact ⟨Grid.Fits.height hA, Grid.Fits.cols hA⟩
  | derivative s x f0 => exact ⟨hA.2.size, hA.1⟩
  | shifted A a ih => exact ih hA.1

/-- The matrix is known only through its products. -/
def Matrix.IsFree : Matrix R K → Prop
  | .free _ => True
  | _ => False

end Sizes

section Matrices

variable {R K : Type} [Scalar R] [Entry R K] {P : K → Prop} {h w : Nat}

namespace Dense

variable {A : Dense K} {v : Vec K}

theorem apply_fits (hP : Entry.Closed P) (hA : A.Fits P h w) (hv : v.Fits P w) :
    (apply A v).Fits P h := by
  refine ⟨(List.length_map _).trans hA.height, fun x hx => ?_⟩
  obtain ⟨r, hr, rfl⟩ := List.mem_map.1 hx
  exact (hA.row hr).dot hP hv

theorem applyTranspose_fits (hP : Entry.Closed P) (hA : A.Fits P h w) (hv : v.Fits P h) :
    (applyTranspose A v).Fits P w :=
  apply_fits hP (hA.transpose hP.zero) hv

theorem gram_fits (hP : Entry.Closed P) (hA : A.Fits P h w) : (gram A).Fits P w w :=
  Grid.fits_table (Grid.length_columns.trans hA.cols) (Grid.length_columns.trans hA.cols)
    fun _ hx _ hy => (hA.column hP.zero hx).dot hP (hA.column hP.zero hy)

theorem addDiagonal_fits (hP : Entry.Closed P) (hA : A.Fits P h w) (hv : ∀ x ∈ v.toList, P x) :
    (addDiagonal A v).Fits P h w :=
  hA.mapDiagonal fun i _ hx => hP.add hx (Vec.Fits.getD ⟨rfl, hv⟩ hP.zero i)

/-- A dense matrix that is not real has an entry that is not. -/
theorem exists_not_isReal (hA : A.Fits P h w) (hreal : isReal A = false) :
    ∃ x, P x ∧ Entry.isReal x = false := by
  obtain ⟨r, hr, hall⟩ := List.all_eq_false.1 hreal
  obtain ⟨x, hx, hx'⟩ := List.all_eq_false.1 (by simpa using hall)
  exact ⟨x, hA.all r hr x hx, by simpa using hx'⟩

end Dense

/-- A sparse matrix of the given sizes with entries of the kind `P`. The places that hold none stand
for a plain zero, with or without an imaginary part. -/
structure Sparse.Fits (P : K → Prop) (h w : Nat) (A : Sparse K) : Prop where
  places : A.places.Fits (Present P) h w
  zero : P A.zero
  plain : ∃ real, A.zero = Entry.zeroAs real

namespace Sparse

variable {A : Sparse K} {v : Vec K}

theorem present_none {α : Type} {P : α → Prop} : Present P none := fun _ h => nomatch h

theorem fits_ofPlaces (hP : Entry.Closed P) {places : Grid (Option K)}
    (hplaces : places.Fits (Present P) h w) : (ofPlaces places).Fits P h w := by
  unfold ofPlaces
  split
  next => exact ⟨hplaces, hP.zero, true, rfl⟩
  next hreal =>
    obtain ⟨r, hr, hall⟩ := List.all_eq_false.1 (Bool.eq_false_iff.2 hreal)
    obtain ⟨o, ho, hx⟩ := List.all_eq_false.1 (by simpa using hall)
    have hexists : ∃ x, P x ∧ Entry.isReal x = false := by
      cases o with
      | none => simp at hx
      | some x => exact ⟨x, hplaces.all r hr _ ho x rfl, by simpa using hx⟩
    have hzero : P (Entry.zeroAs false) := hP.zeroAs fun _ => hexists
    refine ⟨hplaces.map fun o ho x hx => ?_, hzero, false, rfl⟩
    obtain ⟨y, hy, rfl⟩ := Option.map_eq_some_iff.1 hx
    exact hP.widen hexists (ho y hy)

theorem toDense_fits (hA : A.Fits P h w) : (toDense A).Fits P h w :=
  hA.places.map fun o ho => by
    cases o with
    | none => exact hA.zero
    | some x => exact ho x rfl

theorem transpose_fits (hA : A.Fits P h w) : (transpose A).Fits P w h :=
  ⟨hA.places.transpose present_none, hA.zero, hA.plain⟩

theorem products_all (hP : Entry.Closed P) {r : List (Option K)} {xs : List K}
    (hr : ∀ o ∈ r, Present P o) (hxs : ∀ x ∈ xs, P x) : ∀ y ∈ products r xs, P y := by
  intro y hy
  obtain ⟨⟨o, x⟩, hmem, ho⟩ := List.mem_filterMap.1 hy
  obtain ⟨a, ha, rfl⟩ := Option.map_eq_some_iff.1 ho
  have := List.of_mem_zip hmem
  exact hP.mul (hr o this.1 a ha) (hxs x this.2)

theorem common_all (hP : Entry.Closed P) {r s : List (Option K)}
    (hr : ∀ o ∈ r, Present P o) (hs : ∀ o ∈ s, Present P o) : ∀ y ∈ common r s, P y := by
  intro y hy
  obtain ⟨⟨o, o'⟩, hmem, ho⟩ := List.mem_filterMap.1 hy
  obtain ⟨a, ha, hmap⟩ := Option.bind_eq_some_iff.1 ho
  obtain ⟨b, hb, rfl⟩ := Option.map_eq_some_iff.1 hmap
  have := List.of_mem_zip hmem
  exact hP.mul (hr o this.1 a ha) (hs o' this.2 b hb)

theorem apply_fits (hP : Entry.Closed P) (hA : A.Fits P h w) (hv : v.Fits P w) :
    (apply A v).Fits P h := by
  refine ⟨(List.length_map _).trans hA.places.height, fun x hx => ?_⟩
  obtain ⟨r, hr, rfl⟩ := List.mem_map.1 hx
  have hproducts := products_all hP (hA.places.all r hr) hv.all
  exact Vec.Fits.foldl_add (v := Vec.ofList (products r v.toList)) hP ⟨rfl, hproducts⟩
    (hP.add hA.zero (hP.zeroAs hv.exists_not_isReal))

theorem applyTranspose_fits (hP : Entry.Closed P) (hA : A.Fits P h w) (hv : v.Fits P h) :
    (applyTranspose A v).Fits P w :=
  apply_fits hP (transpose_fits hA) hv

theorem gram_fits (hP : Entry.Closed P) (hA : A.Fits P h w) : (gram A).Fits P w w := by
  have hlength : (Grid.columns A.places none).length = w :=
    Grid.length_columns.trans hA.places.cols
  refine ⟨Grid.fits_table hlength hlength fun x hx y hy => ?_, hA.zero, hA.plain⟩
  have hcommon := common_all hP (hA.places.column present_none hx).all
    (hA.places.column present_none hy).all
  intro z hz
  dsimp only [Vec.toList, Vec.ofList] at hcommon
  split at hz
  · cases hz
  · cases hz
    exact Vec.Fits.sum (v := Vec.ofList (common x y)) hP ⟨rfl, hcommon⟩

theorem addDiagonal_fits (hP : Entry.Closed P) (hA : A.Fits P h w) (hv : ∀ x ∈ v.toList, P x) :
    (addDiagonal A v).Fits P h w := by
  refine fits_ofPlaces hP (hA.places.mapDiagonal fun i o ho => ?_)
  intro x hx
  cases hx
  refine hP.add ?_ (Vec.Fits.getD ⟨rfl, hv⟩ hP.zero i)
  cases o with
  | none => exact hA.zero
  | some x => exact ho x rfl

end Sparse

theorem Operator.Fits.exists_not_isReal {A : Operator R K} (hA : A.Fits P h w)
    (hreal : A.isReal = false) : ∃ x, P x ∧ Entry.isReal x = false := by
  induction A with
  | concrete A => exact Dense.exists_not_isReal hA hreal
  | derivative s x f0 => cases hreal
  | shifted A a ih => exact ih hA.1 hreal

namespace Matrix

variable {A : Matrix R K} {v : Vec K}

/-- A matrix of the given sizes with entries of the kind `P`. -/
def Fits (P : K → Prop) (h w : Nat) : Matrix R K → Prop
  | dense A => A.Fits P h w
  | sparse A => A.Fits P h w
  | free A => A.Fits P h w

theorem Fits.sizes (hA : A.Fits P h w) : A.height = h ∧ A.cols = w := by
  cases A with
  | dense A => exact ⟨Grid.Fits.height hA, Grid.Fits.cols hA⟩
  | sparse A => exact ⟨hA.places.height, hA.places.cols⟩
  | free A => exact Operator.Fits.sizes hA

theorem Fits.isSquare (hA : A.Fits P h w) : A.isSquare = true ↔ h = w := by
  obtain ⟨hheight, hcols⟩ := hA.sizes
  rw [Matrix.isSquare, hheight, hcols, beq_iff_eq]

theorem Fits.exists_not_isReal (hA : A.Fits P h w) (hreal : A.isReal = false) :
    ∃ x, P x ∧ Entry.isReal x = false := by
  cases A with
  | dense A => exact Dense.exists_not_isReal hA hreal
  | sparse A => exact ⟨A.zero, hA.zero, hreal⟩
  | free A => exact Operator.Fits.exists_not_isReal hA hreal

theorem applyTranspose_fits (hP : Entry.Closed P) (hA : A.Fits P h w) (hfree : ¬A.IsFree)
    (hv : v.Fits P h) : ∃ x, A.applyTranspose v = .ok x ∧ x.Fits P w := by
  have hsize : v.size = A.height := hv.size.trans hA.sizes.1.symm
  unfold applyTranspose
  rw [if_neg (not_not_intro hsize)]
  cases A with
  | dense A => exact ⟨_, rfl, Dense.applyTranspose_fits hP hA hv⟩
  | sparse A => exact ⟨_, rfl, Sparse.applyTranspose_fits hP hA hv⟩
  | free A => exact (hfree trivial).elim

theorem gram_fits (hP : Entry.Closed P) (hA : A.Fits P h w) (hfree : ¬A.IsFree) :
    A.gram.Fits P w w ∧ ¬A.gram.IsFree := by
  cases A with
  | dense A => exact ⟨Dense.gram_fits hP hA, id⟩
  | sparse A => exact ⟨Sparse.gram_fits hP hA, id⟩
  | free A => exact (hfree trivial).elim

theorem addDiagonal_fits (hP : Entry.Closed P) (hA : A.Fits P h w)
    (hv : ∀ x ∈ v.toList, P x) :
    (A.addDiagonal v).Fits P h w ∧ ((A.addDiagonal v).IsFree ↔ A.IsFree) := by
  cases A with
  | dense A => exact ⟨Dense.addDiagonal_fits hP hA hv, .rfl⟩
  | sparse A => exact ⟨Sparse.addDiagonal_fits hP hA hv, .rfl⟩
  | free A => exact ⟨hA, .rfl⟩

theorem shift_fits (hP : Entry.Closed P) (hA : A.Fits P h h) (a : R) :
    ∃ B, A.shift a = .ok B ∧ B.Fits P h h ∧ (B.IsFree ↔ A.IsFree) := by
  unfold shift
  rw [if_pos (hA.isSquare.2 rfl)]
  have hdiagonal : ∀ x ∈ (Vec.replicate A.height (Entry.ofReal a : K)).toList, P x :=
    (Vec.fits_replicate (n := A.height) (hP.ofReal a)).all
  cases A with
  | dense A => exact ⟨_, rfl, addDiagonal_fits hP (A := .dense A) hA hdiagonal⟩
  | sparse A => exact ⟨_, rfl, addDiagonal_fits hP (A := .sparse A) hA hdiagonal⟩
  | free A => exact ⟨_, rfl, ⟨hA, rfl⟩, .rfl⟩

theorem diagonal_all (hP : Entry.Closed P) (hA : A.Fits P h w) : ∀ x ∈ A.diagonal.toList, P x := by
  cases A with
  | dense A => exact fun x hx => Grid.Fits.diagonal hA hP.zero hx
  | sparse A =>
    intro x hx
    obtain ⟨o, ho, rfl⟩ := List.mem_map.1 hx
    have hpresent := Grid.Fits.diagonal hA.places Sparse.present_none ho
    cases o with
    | none => exact hA.zero
    | some y => exact hpresent y rfl
  | free A => exact fun x hx => nomatch hx

theorem Fits.toDense? (hA : A.Fits P h w) {D : Dense K} (hD : A.toDense? = some D) :
    D.Fits P h w := by
  cases A with
  | dense A =>
    cases hD
    exact hA
  | sparse A =>
    cases hD
    exact Sparse.toDense_fits hA
  | free A => cases hD

/-- The entries of a finite matrix are finite, if zero is. -/
theorem isFinite_toDense (hzero : ∀ real, Entry.isFinite (Entry.zeroAs real : K) = true)
    (hA : A.Fits P h w) (hfinite : A.isFinite) {D : Dense K} (hD : A.toDense? = some D) :
    Dense.isFinite D = true := by
  cases A with
  | dense A =>
    cases hD
    exact hfinite
  | sparse A =>
    cases hD
    obtain ⟨real, hplain⟩ := hA.plain
    refine List.all_eq_true.2 fun r hr => List.all_eq_true.2 fun x hx => ?_
    obtain ⟨s, hs, rfl⟩ := List.mem_map.1 hr
    obtain ⟨o, ho, rfl⟩ := List.mem_map.1 hx
    have hplace := List.all_eq_true.1 (List.all_eq_true.1 hfinite s hs) o ho
    cases o with
    | none =>
      rw [Option.getD_none, hplain]
      exact hzero real
    | some x => exact hplace
  | free A => cases hD

end Matrix

end Matrices

end RootFinding
