import Mathlib.Algebra.MvPolynomial.PDeriv
import RootFinding.Proofs.ExactMatrix

/-!
# Quadratic maps

Maps whose components are polynomials, with their formal derivatives. A polynomial of degree two at
most is its own expansion of the second order, so its second difference is its second derivative.

* `MvPolynomial.slope`, `MvPolynomial.bend`: the first and the second derivative along a vector.
  Their product rules give those of every monomial.
* `MvPolynomial.expands_of_degree`: the expansion.
* `PolynomialMap`: such maps, with `PolynomialMap.jacobian` and `PolynomialMap.curvature`.
* `PolynomialMap.IsQuadratic.second_difference`: the second difference does not depend on its step.
-/

open scoped Matrix

/-! ## Derivatives along a vector -/

namespace MvPolynomial

variable {𝕜 : Type} [RCLike 𝕜] {n : Nat} {p q : MvPolynomial (Fin n) 𝕜} {x v : Fin n → 𝕜} {h : 𝕜}

/-- The derivative of a polynomial at `x` along `v`. -/
noncomputable def slope (p : MvPolynomial (Fin n) 𝕜) (x v : Fin n → 𝕜) : 𝕜 :=
  ∑ j, eval x (pderiv j p) * v j

/-- The second derivative of a polynomial at `x` along `v`. -/
noncomputable def bend (p : MvPolynomial (Fin n) 𝕜) (x v : Fin n → 𝕜) : 𝕜 :=
  ∑ j, ∑ k, eval x (pderiv k (pderiv j p)) * v j * v k

theorem slope_add (p q : MvPolynomial (Fin n) 𝕜) (x v : Fin n → 𝕜) :
    (p + q).slope x v = p.slope x v + q.slope x v := by
  simp only [slope, map_add, add_mul, Finset.sum_add_distrib]

theorem bend_add (p q : MvPolynomial (Fin n) 𝕜) (x v : Fin n → 𝕜) :
    (p + q).bend x v = p.bend x v + q.bend x v := by
  simp only [bend, map_add, add_mul, Finset.sum_add_distrib]

@[simp] theorem slope_C (a : 𝕜) : (C a : MvPolynomial (Fin n) 𝕜).slope x v = 0 := by
  simp [slope]

@[simp] theorem bend_C (a : 𝕜) : (C a : MvPolynomial (Fin n) 𝕜).bend x v = 0 := by
  simp [bend]

@[simp] theorem slope_X (i : Fin n) : (X i : MvPolynomial (Fin n) 𝕜).slope x v = v i := by
  simp [slope, pderiv_X, Pi.single_apply, apply_ite]

@[simp] theorem bend_X (i : Fin n) : (X i : MvPolynomial (Fin n) 𝕜).bend x v = 0 := by
  simp [bend, pderiv_X, Pi.single_apply, apply_ite]

/-- The product rule. -/
@[simp] theorem slope_mul (p q : MvPolynomial (Fin n) 𝕜) (x v : Fin n → 𝕜) :
    (p * q).slope x v = p.slope x v * eval x q + eval x p * q.slope x v := by
  simp only [slope, pderiv_mul, map_add, map_mul, Finset.sum_mul, Finset.mul_sum,
    ← Finset.sum_add_distrib]
  exact Finset.sum_congr rfl fun j _ => by ring

/-- The product rule of the second order. -/
@[simp] theorem bend_mul (p q : MvPolynomial (Fin n) 𝕜) (x v : Fin n → 𝕜) :
    (p * q).bend x v =
      p.bend x v * eval x q + (2 : ℕ) * (p.slope x v * q.slope x v) + eval x p * q.bend x v := by
  -- the mixed terms come in both orders of the two derivatives
  have hmixed : (2 : ℕ) * (p.slope x v * q.slope x v) = ∑ j, ∑ k,
      (eval x (pderiv j p) * v j * (eval x (pderiv k q) * v k) +
        eval x (pderiv k p) * v k * (eval x (pderiv j q) * v j)) := by
    have hswap : p.slope x v * q.slope x v = ∑ j, ∑ k,
        eval x (pderiv k p) * v k * (eval x (pderiv j q) * v j) := by
      rw [slope, slope, Finset.sum_mul_sum, Finset.sum_comm]
    simp only [Finset.sum_add_distrib]
    rw [← hswap, slope, slope, Finset.sum_mul_sum]
    push_cast
    ring
  rw [hmixed]
  simp only [bend, pderiv_mul, map_add, map_mul, Finset.sum_mul, Finset.mul_sum,
    ← Finset.sum_add_distrib]
  exact Finset.sum_congr rfl fun j _ => Finset.sum_congr rfl fun k _ => by ring

/-! ## Expansions of the second order -/

/-- The polynomial is its own expansion of the second order along `v`. -/
def Expands (x v : Fin n → 𝕜) (h : 𝕜) (p : MvPolynomial (Fin n) 𝕜) : Prop :=
  eval (x + h • v) p = eval x p + h * p.slope x v + h ^ (2 : ℕ) / (2 : ℕ) * p.bend x v

theorem Expands.add (hp : p.Expands x v h) (hq : q.Expands x v h) : (p + q).Expands x v h := by
  unfold Expands at hp hq ⊢
  rw [map_add, hp, hq, slope_add, bend_add, map_add]
  ring

/-- A monomial of degree two at most is a constant with no factor, one or two. -/
theorem monomial_cases {s : Fin n →₀ ℕ} (hs : (s.sum fun _ e => e) ≤ 2) (a : 𝕜) :
    monomial s a = C a ∨ (∃ i, monomial s a = C a * X i) ∨
      ∃ i j, monomial s a = C a * (X i * X j) := by
  have hfactors : monomial s a = C a * ((Finsupp.toMultiset s).map X).prod := by
    rw [Finsupp.toMultiset_map, Finsupp.prod_toMultiset, monomial_eq,
      Finsupp.prod_mapDomain_index (by simp) (by simp [pow_add])]
  have hcard : Multiset.card (Finsupp.toMultiset s) ≤ 2 := by
    rw [Finsupp.card_toMultiset]
    exact hs
  rw [hfactors]
  generalize Finsupp.toMultiset s = t at hcard
  obtain ht | ht | ht : t.card = 0 ∨ t.card = 1 ∨ t.card = 2 := by omega
  · obtain rfl := Multiset.card_eq_zero.1 ht
    exact .inl (by simp)
  · obtain ⟨i, rfl⟩ := Multiset.card_eq_one.1 ht
    exact .inr (.inl ⟨i, by simp⟩)
  · obtain ⟨i, j, rfl⟩ := Multiset.card_eq_two.1 ht
    exact .inr (.inr ⟨i, j, by simp⟩)

/-- A polynomial of degree two at most is its own expansion of the second order. -/
theorem expands_of_degree (hp : p.totalDegree ≤ 2) : p.Expands x v h := by
  rw [← p.support_sum_monomial_coeff]
  refine Finset.sum_induction _ (Expands x v h) (fun _ _ => Expands.add) ?_ fun s hs => ?_
  · simp [Expands, slope, bend]
  · obtain hC | ⟨i, hX⟩ | ⟨i, j, hXX⟩ := monomial_cases ((le_totalDegree hs).trans hp) (coeff s p)
    · simp [hC, Expands]
    · simp only [hX, Expands, slope_mul, bend_mul, slope_C, bend_C, slope_X, bend_X, map_mul,
        eval_C, eval_X, Pi.add_apply, Pi.smul_apply, smul_eq_mul]
      ring
    · simp only [hXX, Expands, slope_mul, bend_mul, slope_C, bend_C, slope_X, bend_X, map_mul,
        eval_C, eval_X, Pi.add_apply, Pi.smul_apply, smul_eq_mul]
      push_cast
      ring

end MvPolynomial

/-! ## Maps -/

/-- Maps between spaces of numbers whose components are polynomials. -/
abbrev PolynomialMap (𝕜 : Type) [RCLike 𝕜] (m n : Nat) : Type := Fin m → MvPolynomial (Fin n) 𝕜

namespace PolynomialMap

open MvPolynomial

variable {𝕜 : Type} [RCLike 𝕜] {m n : Nat}

/-- The values of the components. -/
noncomputable def value (P : PolynomialMap 𝕜 m n) (x : Fin n → 𝕜) : Fin m → 𝕜 :=
  fun i => eval x (P i)

/-- The partial derivatives of the components. -/
noncomputable def jacobian (P : PolynomialMap 𝕜 m n) (x : Fin n → 𝕜) : FieldMatrix 𝕜 m n :=
  Matrix.of fun i j => eval x (pderiv j (P i))

/-- The second derivatives of the components along `v`. -/
noncomputable def curvature (P : PolynomialMap 𝕜 m n) (x v : Fin n → 𝕜) : Fin m → 𝕜 :=
  fun i => (P i).bend x v

/-- All components have degree two at most. -/
def IsQuadratic (P : PolynomialMap 𝕜 m n) : Prop := ∀ i, (P i).totalDegree ≤ 2

/-- The second difference of a quadratic map is its second derivative, however long the step is. -/
theorem IsQuadratic.second_difference {P : PolynomialMap 𝕜 m n} (hP : P.IsQuadratic)
    (x v : Fin n → 𝕜) {h : 𝕜} (hh : h ≠ 0) (i : Fin m) :
    (2 : ℕ) / h * ((P.value (x + h • v) i - P.value x i) / h - (P.jacobian x *ᵥ v) i) =
      P.curvature x v i := by
  have hslope : (P.jacobian x *ᵥ v) i = (P i).slope x v := rfl
  have hexpands : P.value (x + h • v) i = _ := expands_of_degree (hP i)
  rw [hexpands, hslope, value, curvature]
  field_simp
  ring

end PolynomialMap
