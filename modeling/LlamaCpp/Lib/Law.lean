import Mathlib.Algebra.BigOperators.Ring.Finset
import Mathlib.Algebra.Order.BigOperators.Group.List
import Mathlib.Algebra.Order.Field.Rat
import Mathlib.Tactic.Ring

/-!
# Finite laws with rational weights

A law lists its runs, each with its weight; a value may be the outcome of several runs.
Everything is stated through the expectation of a function, and the probability of an
event is the expectation of its indicator.
-/

set_option autoImplicit false

namespace LlamaCpp.Lib

open List

variable {α β : Type*}

abbrev Law (α : Type*) := List (ℚ × α)

namespace Law

def dirac (a : α) : Law α := [(1, a)]

def bind (law : Law α) (next : α → Law β) : Law β :=
  List.flatMap (fun run => (next run.2).map fun tail => (run.1 * tail.1, tail.2)) law

/-- `true` with probability `p`. -/
def flip (p : ℚ) : Law Bool := [(p, true), (1 - p, false)]

def expect (law : Law α) (f : α → ℚ) : ℚ := (List.map (fun run => run.1 * f run.2) law).sum

def prob (law : Law α) (event : α → Bool) : ℚ := law.expect fun a => if event a then 1 else 0

def total (law : Law α) : ℚ := law.expect fun _ => 1

@[simp] theorem expect_dirac (a : α) (f : α → ℚ) : (dirac a).expect f = f a := by
  simp [dirac, expect]

@[simp] theorem expect_flip (p : ℚ) (f : Bool → ℚ) :
    (flip p).expect f = p * f true + (1 - p) * f false := by
  simp [flip, expect]

theorem expect_cons (run : ℚ × α) (law : Law α) (f : α → ℚ) :
    expect (run :: law) f = run.1 * f run.2 + law.expect f := by
  simp [expect]

theorem expect_append (first second : Law α) (f : α → ℚ) :
    expect (first ++ second) f = first.expect f + second.expect f := by
  simp [expect]

theorem expect_scaled (weight : ℚ) (law : Law α) (f : α → ℚ) :
    expect (List.map (fun run => (weight * run.1, run.2)) law) f = weight * law.expect f := by
  simp only [expect, map_map, ← sum_map_mul_left]
  congr 1
  apply map_congr_left
  intro run _
  exact mul_assoc _ _ _

theorem expect_bind (law : Law α) (next : α → Law β) (f : β → ℚ) :
    (law.bind next).expect f = law.expect fun a => (next a).expect f := by
  induction law with
  | nil => rfl
  | cons run law ih =>
    have unfolded : bind (run :: law) next =
        (next run.2).map (fun tail => (run.1 * tail.1, tail.2)) ++ bind law next := rfl
    rw [unfolded, expect_append, expect_scaled, ih, expect_cons]

theorem expect_mul_right (law : Law α) (f : α → ℚ) (c : ℚ) :
    (law.expect fun a => f a * c) = law.expect f * c := by
  simp [expect, ← sum_map_mul_right, mul_assoc]

theorem expect_const (law : Law α) (c : ℚ) : (law.expect fun _ => c) = law.total * c := by
  rw [total, ← expect_mul_right]
  simp

theorem expect_add (law : Law α) (f g : α → ℚ) :
    (law.expect fun a => f a + g a) = law.expect f + law.expect g := by
  simp [expect, mul_add]

theorem total_bind (law : Law α) (next : α → Law β) (proper : ∀ a, (next a).total = 1) :
    (law.bind next).total = law.total := by
  rw [total, expect_bind]
  change (law.expect fun a => (next a).total) = law.total
  simp only [proper]
  rfl

theorem total_dirac (a : α) : (dirac a).total = 1 := expect_dirac a _

section Mass

variable [DecidableEq α]

def mass (law : Law α) (a : α) : ℚ := law.prob fun b => decide (b = a)

theorem mass_cons (run : ℚ × α) (law : Law α) (a : α) :
    mass (run :: law) a = (if run.2 = a then run.1 else 0) + law.mass a := by
  rw [mass, prob, expect_cons]
  congr 1
  simp

variable {law : Law α}

theorem mass_nonneg (nonneg : ∀ run ∈ law, 0 ≤ run.1) (a : α) : 0 ≤ law.mass a := by
  apply sum_nonneg
  intro x member
  obtain ⟨run, inside, equal⟩ := mem_map.mp member
  rw [← equal]
  apply mul_nonneg (nonneg run inside)
  dsimp only
  split
  · exact zero_le_one
  · exact le_rfl

theorem mass_eq_zero {a : α} (absent : ∀ run ∈ law, run.2 ≠ a) : law.mass a = 0 := by
  induction law with
  | nil => rfl
  | cons run law ih =>
    rw [mass_cons, if_neg (absent run (mem_cons_self ..)), zero_add]
    exact ih fun other member => absent other (mem_cons_of_mem _ member)

theorem expect_eq_sum {s : Finset α} (covered : ∀ run ∈ law, run.2 ∈ s) (f : α → ℚ) :
    law.expect f = ∑ a ∈ s, law.mass a * f a := by
  induction law with
  | nil => simp [expect, mass, prob]
  | cons run law ih =>
    rw [expect_cons, ih fun other member => covered other (mem_cons_of_mem _ member)]
    simp only [mass_cons, add_mul, Finset.sum_add_distrib, ite_mul, zero_mul]
    rw [Finset.sum_ite_eq, if_pos (covered run (mem_cons_self ..))]

end Mass

/-- `std::discrete_distribution` on the weights of the runs. -/
def normalize (law : Law α) : Law α :=
  List.map (fun run => (run.1 / law.total, run.2)) law

theorem expect_normalize (law : Law α) (f : α → ℚ) :
    law.normalize.expect f = law.expect f / law.total := by
  have scaled : law.normalize = List.map (fun run => (law.total⁻¹ * run.1, run.2)) law := by
    apply map_congr_left
    intro run _
    rw [div_eq_inv_mul]
  rw [scaled, expect_scaled, div_eq_inv_mul]

theorem total_normalize {law : Law α} (positive : law.total ≠ 0) : law.normalize.total = 1 := by
  rw [total, expect_normalize]
  exact div_self positive

end Law

end LlamaCpp.Lib
