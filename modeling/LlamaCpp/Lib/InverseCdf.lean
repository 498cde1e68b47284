import Mathlib.Algebra.Order.Field.Basic
import Mathlib.Algebra.Order.BigOperators.Group.List
import Mathlib.Tactic.Linarith

/-!
# Drawing by cumulative weight

The search for the first cumulative weight above a point, with the last one raised by a
margin.  A point below the total falls into the step of an entry of positive weight, and the
total itself falls past every step, so that only the margin stops the search.
-/

set_option autoImplicit false

namespace LlamaCpp.Lib

open List

variable {K : Type} [Field K] [LinearOrder K] [IsStrictOrderedRing K]

def cumulative : K → List K → List K
  | _, [] => []
  | start, weight :: weights => (start + weight) :: cumulative (start + weight) weights

def raiseLast (margin : K) : List K → List K
  | [] => []
  | [last] => [last + margin]
  | first :: second :: rest => first :: raiseLast margin (second :: rest)

/-- `std::upper_bound` on ascending entries: the first one above the point. -/
def upperBound (entries : List K) (point : K) : Option Nat :=
  entries.findIdx? fun entry => decide (point < entry)

def weightBefore (weights : List K) (index : Nat) : K := (weights.take index).sum

omit [LinearOrder K] [IsStrictOrderedRing K] in
theorem weightBefore_succ {weights : List K} {index : Nat} {weight : K}
    (found : weights[index]? = some weight) :
    weightBefore weights (index + 1) = weightBefore weights index + weight := by
  rw [weightBefore, take_add_one, found]
  simp [weightBefore]

omit [LinearOrder K] [IsStrictOrderedRing K] in
theorem weightBefore_cons (weight : K) (weights : List K) (index : Nat) :
    weightBefore (weight :: weights) (index + 1) = weight + weightBefore weights index := by
  simp [weightBefore]

omit [IsStrictOrderedRing K] in
theorem upperBound_cons (margin point start weight second : K) (rest : List K) :
    upperBound (raiseLast margin (cumulative start (weight :: second :: rest))) point =
      if point < start + weight then some 0
      else (upperBound (raiseLast margin (cumulative (start + weight) (second :: rest)))
        point).map (· + 1) := by
  have split : raiseLast margin (cumulative start (weight :: second :: rest)) =
      (start + weight) :: raiseLast margin (cumulative (start + weight) (second :: rest)) := rfl
  rw [split, upperBound, List.findIdx?_cons]
  simp_all [upperBound]

theorem upperBound_below {weights : List K} {margin point : K} (nonneg : 0 ≤ margin)
    (start : K) (above : start ≤ point) (below : point < start + weights.sum) :
    ∃ index weight,
      upperBound (raiseLast margin (cumulative start weights)) point = some index ∧
        weights[index]? = some weight ∧ start + weightBefore weights index ≤ point ∧
          point < start + weightBefore weights (index + 1) := by
  induction weights generalizing start with
  | nil => exact absurd above (not_le.mpr (by simpa using below))
  | cons weight weights ih =>
    rw [sum_cons, ← add_assoc] at below
    cases weights with
    | nil =>
      rw [sum_nil] at below
      have raised : point < start + weight + margin := by linarith
      exact ⟨0, weight, by simp [upperBound, cumulative, raiseLast, raised], rfl,
        by simpa [weightBefore] using above, by simpa [weightBefore] using below⟩
    | cons second rest =>
      rw [upperBound_cons]
      by_cases here : point < start + weight
      · exact ⟨0, weight, by rw [if_pos here], rfl,
          by simpa [weightBefore] using above, by simpa [weightBefore] using here⟩
      · obtain ⟨index, found, stops, at_, lower, upper⟩ :=
          ih (start + weight) (not_lt.mp here) below
        refine ⟨index + 1, found, by rw [if_neg here, stops]; rfl, at_, ?_, ?_⟩
        · rw [weightBefore_cons, ← add_assoc]
          exact lower
        · rw [weightBefore_cons, ← add_assoc]
          exact upper

theorem upperBound_total {weights : List K} {margin : K} (positive : 0 < margin)
    (nonneg : ∀ weight ∈ weights, 0 ≤ weight) (start : K) (some_ : weights ≠ []) :
    upperBound (raiseLast margin (cumulative start weights)) (start + weights.sum) =
      some (weights.length - 1) := by
  induction weights generalizing start with
  | nil => exact absurd rfl some_
  | cons weight weights ih =>
    cases weights with
    | nil => simp [upperBound, cumulative, raiseLast, positive]
    | cons second rest =>
      have nonnegRest : ∀ w ∈ second :: rest, 0 ≤ w :=
        fun w member => nonneg w (mem_cons_of_mem _ member)
      have notHere : ¬start + (weight :: second :: rest).sum < start + weight := by
        have := sum_nonneg nonnegRest
        rw [sum_cons]
        linarith
      have total : start + (weight :: second :: rest).sum =
          start + weight + (second :: rest).sum := by
        rw [sum_cons, add_assoc]
      rw [upperBound_cons, if_neg notHere, total,
        ih nonnegRest (start + weight) (cons_ne_nil _ _)]
      rfl

end LlamaCpp.Lib
