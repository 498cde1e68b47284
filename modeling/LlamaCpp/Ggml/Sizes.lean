import Mathlib.Data.Fintype.Basic
import Mathlib.Algebra.GroupWithZero.Nat

/-!
# Sizes of tensors

How many bytes a tensor extends over, as the code computes it in 64 bits, and as a number.
-/

set_option autoImplicit false

namespace LlamaCpp.Ggml

structure TypeTraits where
  blckSize : BitVec 32 → BitVec 64
  typeSize : BitVec 32 → BitVec 64
  rowMetaSize : BitVec 32 → BitVec 64

def typeCount : BitVec 32 := 400

def typeI2S : BitVec 32 := 36

/-- A tensor has a first dimension. -/
scoped instance neZero_dims : NeZero (4 : Nat) := ⟨by decide⟩

section

/-- The sum of the strides of the given dimensions, as `size_t`. -/
def strideSum (ne nb : Fin 4 → BitVec 64) (start : BitVec 64) (dims : List (Fin 4)) : BitVec 64 :=
  dims.foldl (fun nbytes i => nbytes + (ne i - 1) * nb i) start

variable (types : TypeTraits)

def rowSize (type : BitVec 32) (ne : BitVec 64) : BitVec 64 :=
  types.rowMetaSize type + types.typeSize type * ne / types.blckSize type

def nbytes (type : BitVec 32) (ne nb : Fin 4 → BitVec 64) : BitVec 64 :=
  if ∃ i, (ne i).toInt ≤ 0 then 0
  else if types.blckSize type = 1 then
    let nbytes := strideSum ne nb (types.typeSize type) [0, 1, 2, 3]
    if type = typeI2S then nbytes / 4 + 32 else nbytes
  else strideSum ne nb (rowSize types type (ne 0)) [1, 2, 3]

def exactStrideSum (ne nb : Fin 4 → BitVec 64) (start : Nat) (dims : List (Fin 4)) : Nat :=
  dims.foldl (fun nbytes i => nbytes + ((ne i).toNat - 1) * (nb i).toNat) start

def exactRowSize (type : BitVec 32) (ne : BitVec 64) : Nat :=
  (types.rowMetaSize type).toNat +
    (types.typeSize type).toNat * ne.toNat / (types.blckSize type).toNat

/-- The sum of the strides that `ggml_nbytes` makes. -/
def exactSpan (type : BitVec 32) (ne nb : Fin 4 → BitVec 64) : Nat :=
  if types.blckSize type = 1 then exactStrideSum ne nb (types.typeSize type).toNat [0, 1, 2, 3]
  else exactStrideSum ne nb (exactRowSize types type (ne 0)) [1, 2, 3]

/-- `ggml_nbytes` in unbounded numbers: how many bytes from its data on a tensor extends over. -/
def exactBytes (type : BitVec 32) (ne nb : Fin 4 → BitVec 64) : Nat :=
  if ∃ i, (ne i).toInt ≤ 0 then 0
  else if types.blckSize type = 1 ∧ type = typeI2S then exactSpan types type ne nb / 4 + 32
  else exactSpan types type ne nb

/-- The sums and products of `ggml_nbytes` fit in 64 bits. -/
def NoWrap (type : BitVec 32) (ne nb : Fin 4 → BitVec 64) : Prop :=
  (∀ i, 0 < (ne i).toInt) →
    exactSpan types type ne nb < 2 ^ 64 ∧
      (types.blckSize type ≠ 1 → (types.typeSize type).toNat * (ne 0).toNat < 2 ^ 64)

theorem le_exactStrideSum (ne nb : Fin 4 → BitVec 64) (start : Nat) (dims : List (Fin 4)) :
    start ≤ exactStrideSum ne nb start dims := by
  induction dims generalizing start with
  | nil => exact Nat.le_refl start
  | cons i rest ih => exact (Nat.le_add_right ..).trans (ih _)

theorem toNat_strideSum {ne nb : Fin 4 → BitVec 64} (some_ : ∀ i, 0 < (ne i).toNat)
    {start : BitVec 64} {dims : List (Fin 4)}
    (fits : exactStrideSum ne nb start.toNat dims < 2 ^ 64) :
    (strideSum ne nb start dims).toNat = exactStrideSum ne nb start.toNat dims := by
  induction dims generalizing start with
  | nil => rfl
  | cons i rest ih =>
    rw [exactStrideSum, List.foldl_cons] at fits ⊢
    have small : start.toNat + ((ne i).toNat - 1) * (nb i).toNat < 2 ^ 64 :=
      lt_of_le_of_lt (le_exactStrideSum ne nb _ rest) fits
    have positive := some_ i
    have less : (ne i - 1).toNat = (ne i).toNat - 1 := by
      rw [BitVec.toNat_sub_of_le (by exact positive)]
      rfl
    have step : (start + (ne i - 1) * nb i).toNat =
        start.toNat + ((ne i).toNat - 1) * (nb i).toNat := by
      rw [BitVec.toNat_add, BitVec.toNat_mul, less, Nat.add_mod_mod, Nat.mod_eq_of_lt small]
    rw [← step] at fits ⊢
    exact ih fits

theorem toNat_nbytes {type : BitVec 32} {ne nb : Fin 4 → BitVec 64} (fits : NoWrap types type ne nb) :
    (nbytes types type ne nb).toNat = exactBytes types type ne nb := by
  unfold nbytes exactBytes
  by_cases empty : ∃ i, (ne i).toInt ≤ 0
  · rw [if_pos empty, if_pos empty]
    rfl
  · rw [if_neg empty, if_neg empty]
    have positive (i : Fin 4) : 0 < (ne i).toInt := by
      by_contra none
      exact empty ⟨i, by omega⟩
    have some_ (i : Fin 4) : 0 < (ne i).toNat := by
      have sign := positive i
      rw [BitVec.toInt_eq_toNat_cond] at sign
      omega
    obtain ⟨span, row⟩ := fits positive
    by_cases single : types.blckSize type = 1
    · rw [exactSpan, if_pos single] at span
      have sum := toNat_strideSum some_ span
      rw [if_pos single, exactSpan, if_pos single]
      by_cases packed : type = typeI2S
      · rw [if_pos packed, if_pos ⟨single, packed⟩, BitVec.toNat_add, BitVec.toNat_udiv, sum,
          Nat.mod_eq_of_lt]
        · rfl
        · rw [show (4 : BitVec 64).toNat = 4 from rfl, show (32 : BitVec 64).toNat = 32 from rfl]
          omega
      · rw [if_neg packed, if_neg fun both => packed both.2, sum]
    · rw [exactSpan, if_neg single] at span
      have whole : (rowSize types type (ne 0)).toNat = exactRowSize types type (ne 0) := by
        have start := lt_of_le_of_lt (le_exactStrideSum ne nb _ [1, 2, 3]) span
        rw [rowSize, BitVec.toNat_add, BitVec.toNat_udiv, BitVec.toNat_mul,
          Nat.mod_eq_of_lt (row single)]
        exact Nat.mod_eq_of_lt start
      rw [← whole] at span
      rw [if_neg single, if_neg fun both => single both.1, exactSpan, if_neg single,
        toNat_strideSum some_ span, whole]

end

end LlamaCpp.Ggml
