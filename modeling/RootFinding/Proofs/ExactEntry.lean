import Mathlib.Analysis.RCLike.Basic
import RootFinding.Proofs.Exact

/-!
# Entries of exact arithmetic

The finite entries of exact arithmetic are the numbers of a field, the real or the complex ones, and
compute as these do. All entries carry an imaginary part, or none does.

* `ExactEntry 𝕜 K`: the laws. Exact scalars are their own entries and fulfil them.
* `Vec.Reads`: the entries of a vector are the given numbers.
-/

namespace RootFinding

open Exact

/-- Entries `K` over the exact scalars whose finite ones are the numbers of the field `𝕜`. -/
class ExactEntry (𝕜 : outParam Type) (K : Type) [RCLike 𝕜] [Entry Exact K] where
  number : 𝕜 → K
  number_injective : Function.Injective number
  isFinite_iff (x : K) : Entry.isFinite x = true ↔ ∃ z, x = number z
  ofReal (a : ℝ) : Entry.ofReal (real a) = number (a : 𝕜)
  /-- A zero that has an imaginary part where an entry has one. -/
  zeroAs (x : K) : Entry.zeroAs (Entry.isReal x) = number 0
  add (x y : 𝕜) : number x + number y = number (x + y)
  sub (x y : 𝕜) : number x - number y = number (x - y)
  mul (x y : 𝕜) : number x * number y = number (x * y)
  div (x : 𝕜) {y : 𝕜} : y ≠ 0 → number x / number y = number (x / y)
  abs (x : 𝕜) : Entry.abs (number x) = real ‖x‖
  isZero_iff (x : K) : Entry.isZero x = true ↔ x = number 0
  /-- A difference is finite only if both of its terms are. -/
  isFinite_sub {x y : K} : Entry.isFinite (x - y) = true →
    Entry.isFinite x = true ∧ Entry.isFinite y = true
  isReal_eq (x y : K) : Entry.isReal x = Entry.isReal y

noncomputable instance : ExactEntry ℝ Exact where
  number := real
  number_injective _ _ h := Exact.real.inj h
  isFinite_iff x := by
    have h : Entry.isFinite x = x.isReal := Bool.and_true _
    rw [h, isReal_iff]
  ofReal _ := rfl
  zeroAs _ := zero_eq
  add _ _ := real_add
  sub _ _ := real_sub
  mul _ _ := real_mul
  div _ _ hy := real_div hy
  abs _ := rfl
  isZero_iff _ := Exact.isZero_iff
  isFinite_sub h := by
    simp only [Entry.isFinite, Bool.and_eq_true_iff] at h ⊢
    obtain ⟨hx, hy⟩ := isReal_sub h.1
    exact ⟨⟨hx, rfl⟩, hy, rfl⟩
  isReal_eq _ _ := rfl

namespace ExactEntry

variable (𝕜 : Type) {K : Type} [RCLike 𝕜] [Entry Exact K] [ExactEntry 𝕜 K]

theorem exists_number {x : K} (h : Entry.isFinite x = true) : ∃ z : 𝕜, x = number z :=
  (isFinite_iff x).1 h

theorem zero_eq : (Entry.zero : K) = number (0 : 𝕜) := by
  have h : (0.0 : Exact) = real 0 := by norm_num
  rw [Entry.zero, h, ofReal, RCLike.ofReal_zero]

variable {𝕜}

@[simp] theorem isFinite_number (z : 𝕜) : Entry.isFinite (number z : K) = true :=
  (isFinite_iff _).2 ⟨z, rfl⟩

end ExactEntry

end RootFinding
