import Mathlib.Data.Nat.Basic
import Mathlib.Tactic.Common

/-!
# Packing blocks into a buffer that wraps

Blocks are placed one after the other; a block that would go beyond the
capacity starts again at the front.  A window is a stretch of blocks without
such a wrap.
-/

set_option autoImplicit false

namespace LlamaCpp.Lib

open List

structure Spot where
  window : Nat
  start : Nat
  size : Nat
  deriving DecidableEq

/-- The spots of the blocks when `used` of the window `window` is taken. -/
def pack (capacity : Nat) : Nat → Nat → List Nat → List Spot
  | _, _, [] => []
  | window, used, size :: rest =>
    if capacity < used + size then ⟨window + 1, 0, size⟩ :: pack capacity (window + 1) size rest
    else ⟨window, used, size⟩ :: pack capacity window (used + size) rest

variable {capacity : Nat}

theorem length_pack (window used : Nat) (sizes : List Nat) :
    (pack capacity window used sizes).length = sizes.length := by
  induction sizes generalizing window used with
  | nil => rfl
  | cons size rest ih =>
    rw [pack]
    split
    · rw [length_cons, ih, length_cons]
    · rw [length_cons, ih, length_cons]

variable {window used : Nat} {sizes : List Nat} {spot : Spot}

theorem pack_size {i : Nat} (here : (pack capacity window used sizes)[i]? = some spot) :
    sizes[i]? = some spot.size := by
  induction sizes generalizing window used i with
  | nil => simp [pack] at here
  | cons size rest ih =>
    rw [pack] at here
    cases i with
    | zero =>
      split at here
      · simp at here
        simp [← here]
      · simp at here
        simp [← here]
    | succ i =>
      split at here
      · exact ih here
      · exact ih here

theorem pack_inside (fits : ∀ size ∈ sizes, size ≤ capacity)
    (member : spot ∈ pack capacity window used sizes) : spot.start + spot.size ≤ capacity := by
  induction sizes generalizing window used with
  | nil => cases member
  | cons size rest ih =>
    have tail : ∀ window used, spot ∈ pack capacity window used rest →
        spot.start + spot.size ≤ capacity :=
      fun _ _ => ih fun other later => fits other (mem_cons_of_mem _ later)
    rw [pack] at member
    split at member
    · rcases mem_cons.mp member with rfl | later
      · simpa using fits size mem_cons_self
      · exact tail _ _ later
    · rename_i room
      rcases mem_cons.mp member with rfl | later
      · exact Nat.le_of_not_lt room
      · exact tail _ _ later

theorem pack_after (member : spot ∈ pack capacity window used sizes) :
    window ≤ spot.window ∧ (spot.window = window → used ≤ spot.start) := by
  induction sizes generalizing window used with
  | nil => cases member
  | cons size rest ih =>
    rw [pack] at member
    split at member
    · rcases mem_cons.mp member with rfl | later
      · exact ⟨Nat.le_succ window, fun same => absurd same (Nat.succ_ne_self window)⟩
      · have after := ih later
        exact ⟨Nat.le_of_succ_le after.1, fun same => by omega⟩
    · rcases mem_cons.mp member with rfl | later
      · exact ⟨Nat.le_refl _, fun _ => Nat.le_refl _⟩
      · have after := ih later
        exact ⟨after.1, fun same => Nat.le_of_add_right_le (after.2 same)⟩

theorem pack_pairwise (window used : Nat) (sizes : List Nat) :
    (pack capacity window used sizes).Pairwise fun one other =>
      one.window ≤ other.window ∧ (one.window = other.window → one.start + one.size ≤ other.start) := by
  induction sizes generalizing window used with
  | nil => exact .nil
  | cons size rest ih =>
    rw [pack]
    split
    · refine pairwise_cons.mpr ⟨fun other later => ?_, ih _ _⟩
      have after := pack_after later
      exact ⟨after.1, fun same => by simpa using after.2 same.symm⟩
    · refine pairwise_cons.mpr ⟨fun other later => ?_, ih _ _⟩
      have after := pack_after later
      exact ⟨after.1, fun same => after.2 same.symm⟩

theorem pack_filled {before after : List Spot}
    (parts : pack capacity window used sizes = before ++ spot :: after) {x : Nat}
    (inFront : x < spot.start) (taken : spot.window = window → used ≤ x) :
    ∃ other ∈ before, other.window = spot.window ∧ other.start ≤ x ∧ x < other.start + other.size := by
  induction sizes generalizing window used before with
  | nil => simp [pack] at parts
  | cons size rest ih =>
    rw [pack] at parts
    split at parts
    · cases before with
      | nil =>
        obtain ⟨rfl, -⟩ := List.cons.inj parts
        exact absurd inFront (Nat.not_lt_zero x)
      | cons first before =>
        obtain ⟨rfl, others⟩ := List.cons.inj parts
        by_cases here : spot.window = window + 1 ∧ x < size
        · exact ⟨_, mem_cons_self, here.1.symm, Nat.zero_le x, by simpa using here.2⟩
        · obtain ⟨other, member, found⟩ := ih others fun same => by
            by_contra small
            exact here ⟨same, by omega⟩
          exact ⟨other, mem_cons_of_mem _ member, found⟩
    · cases before with
      | nil =>
        obtain ⟨rfl, -⟩ := List.cons.inj parts
        exact absurd inFront (Nat.not_lt.mpr (taken rfl))
      | cons first before =>
        obtain ⟨rfl, others⟩ := List.cons.inj parts
        by_cases here : spot.window = window ∧ x < used + size
        · exact ⟨_, mem_cons_self, here.1.symm, taken here.1, here.2⟩
        · obtain ⟨other, member, found⟩ := ih others fun same => by
            by_contra small
            exact here ⟨same, by omega⟩
          exact ⟨other, mem_cons_of_mem _ member, found⟩

end LlamaCpp.Lib
