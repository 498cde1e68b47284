import Mathlib.Algebra.Order.BigOperators.Group.Finset
import Mathlib.Algebra.BigOperators.Ring.Finset
import Mathlib.Algebra.Order.Field.Basic
import Mathlib.Tactic.FieldSimp
import Mathlib.Tactic.LinearCombination
import Mathlib.Tactic.Linarith
import Mathlib.Tactic.Ring

/-!
# Rejection sampling with target weights that need not add up to one

A value `x` is proposed with probability `q x` and kept with probability `min 1 (p x / q x)`;
otherwise a value is drawn from the positive part of `p - q`, or from `p` where that part is
zero.  `emitted` is the probability of the result, and it is the normalised `p` in three cases
only.
-/

set_option autoImplicit false

namespace LlamaCpp.Lib

variable {K : Type*} [Field K] [LinearOrder K] [IsStrictOrderedRing K] {α : Type*}

section Rejection

variable (s : Finset α) (p q : α → K)

def weight : K := ∑ x ∈ s, p x

def kept : K := ∑ x ∈ s, min (p x) (q x)

/-- The weight of the positive part of `p - q`. -/
def spillWeight : K := ∑ x ∈ s, max 0 (p x - q x)

def emitted (x : α) : K :=
  min (p x) (q x) + (1 - kept s p q) *
    if spillWeight s p q = 0 then p x / weight s p
    else max 0 (p x - q x) / spillWeight s p q

/-- The weights are those of a law, or the proposal dominates them, or it is proportional to
them where they are positive. -/
def Exact : Prop :=
  weight s p = 1 ∨ (∀ x ∈ s, p x ≤ q x) ∨ ∃ c, ∀ x ∈ s, 0 < p x → q x = c * p x

variable {s p q}

theorem min_add_spill (x : α) : min (p x) (q x) + max 0 (p x - q x) = p x := by
  rcases le_total (p x) (q x) with below | above
  · rw [min_eq_left below, max_eq_left (by linarith), add_zero]
  · rw [min_eq_right above, max_eq_right (by linarith)]
    ring

theorem spillWeight_eq : spillWeight s p q = weight s p - kept s p q := by
  rw [weight, kept, ← Finset.sum_sub_distrib]
  apply Finset.sum_congr rfl
  intro x _
  linarith [min_add_spill (p := p) (q := q) x]

theorem spillWeight_eq_zero_iff : spillWeight s p q = 0 ↔ ∀ x ∈ s, p x ≤ q x := by
  rw [spillWeight, Finset.sum_eq_zero_iff_of_nonneg fun x _ => le_max_left 0 (p x - q x)]
  refine forall₂_congr fun x _ => ?_
  rw [max_eq_left_iff, sub_nonpos]

variable {x : α}

theorem emitted_of_dominated (positive : weight s p ≠ 0) (dominated : ∀ x ∈ s, p x ≤ q x)
    (member : x ∈ s) : emitted s p q x = p x / weight s p := by
  have none_ := spillWeight_eq_zero_iff.mpr dominated
  have all : kept s p q = weight s p := by linarith [spillWeight_eq (s := s) (p := p) (q := q)]
  rw [emitted, if_pos none_, all, min_eq_left (dominated x member)]
  field_simp
  ring

theorem emitted_of_weight_one (one : weight s p = 1) (member : x ∈ s) :
    emitted s p q x = p x / weight s p := by
  by_cases none_ : spillWeight s p q = 0
  · exact emitted_of_dominated (by rw [one]; exact one_ne_zero)
      (spillWeight_eq_zero_iff.mp none_) member
  · have same : 1 - kept s p q = spillWeight s p q := by rw [spillWeight_eq, one]
    rw [emitted, if_neg none_, same, mul_div_cancel₀ _ none_, min_add_spill, one, div_one]

theorem emitted_of_proportional (nonneg : ∀ x ∈ s, 0 ≤ p x) (nonnegQ : ∀ x ∈ s, 0 ≤ q x)
    (positive : weight s p ≠ 0) {c : K} (proportional : ∀ x ∈ s, 0 < p x → q x = c * p x)
    (member : x ∈ s) : emitted s p q x = p x / weight s p := by
  rcases le_or_gt 1 c with large | small
  · apply emitted_of_dominated positive _ member
    intro y inside
    rcases (nonneg y inside).eq_or_lt with zero | above
    · rw [← zero]
      exact nonnegQ y inside
    · rw [proportional y inside above]
      exact le_mul_of_one_le_left (nonneg y inside) large
  · have minimum : ∀ y ∈ s, min (p y) (q y) = c * p y := by
      intro y inside
      rcases (nonneg y inside).eq_or_lt with zero | above
      · rw [← zero, mul_zero, min_eq_left (nonnegQ y inside)]
      · rw [proportional y inside above, min_eq_right]
        exact mul_le_of_le_one_left (nonneg y inside) small.le
    have keptEq : kept s p q = c * weight s p := by
      rw [weight, Finset.mul_sum]
      exact Finset.sum_congr rfl minimum
    have spill : spillWeight s p q = (1 - c) * weight s p := by
      rw [spillWeight_eq, keptEq]
      ring
    have rest : 1 - c ≠ 0 := by linarith
    have part : max 0 (p x - q x) = (1 - c) * p x := by
      linarith [min_add_spill (p := p) (q := q) x, minimum x member]
    rw [emitted, minimum x member, if_neg (by rw [spill]; exact mul_ne_zero rest positive), part,
      spill, keptEq]
    field_simp
    ring

theorem proportional_of_emitted (positive : weight s p ≠ 0)
    (other : weight s p ≠ 1) (spills : spillWeight s p q ≠ 0)
    (right_ : ∀ x ∈ s, emitted s p q x = p x / weight s p) :
    ∃ c, ∀ x ∈ s, 0 < p x → q x = c * p x := by
  have slack : weight s p - 1 ≠ 0 := sub_ne_zero.mpr other
  refine ⟨kept s p q / weight s p, fun x member above => ?_⟩
  have law := right_ x member
  rw [emitted, if_neg spills] at law
  rcases le_or_gt (p x) (q x) with below | exceeds
  · rw [min_eq_left below, max_eq_left (by linarith), zero_div, mul_zero, add_zero,
      eq_div_iff positive] at law
    exact absurd (mul_left_cancel₀ above.ne' (law.trans (mul_one _).symm)) other
  · rw [min_eq_right exceeds.le, max_eq_right (by linarith)] at law
    rw [spillWeight_eq] at law spills
    rw [div_mul_eq_mul_div, eq_div_iff positive]
    apply mul_left_cancel₀ slack
    field_simp at law
    linear_combination law

theorem emitted_exact_iff (nonneg : ∀ x ∈ s, 0 ≤ p x) (nonnegQ : ∀ x ∈ s, 0 ≤ q x)
    (positive : weight s p ≠ 0) :
    (∀ x ∈ s, emitted s p q x = p x / weight s p) ↔ Exact s p q := by
  constructor
  · intro right_
    by_cases one : weight s p = 1
    · exact Or.inl one
    · by_cases none_ : spillWeight s p q = 0
      · exact Or.inr (Or.inl (spillWeight_eq_zero_iff.mp none_))
      · exact Or.inr (Or.inr (proportional_of_emitted positive one none_ right_))
  · intro exact_ x member
    rcases exact_ with one | dominated | ⟨c, proportional⟩
    · exact emitted_of_weight_one one member
    · exact emitted_of_dominated positive dominated member
    · exact emitted_of_proportional nonneg nonnegQ positive proportional member

end Rejection

end LlamaCpp.Lib
