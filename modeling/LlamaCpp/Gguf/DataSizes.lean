import LlamaCpp.Gguf.Checks
import Mathlib.Algebra.BigOperators.Group.List.Basic

/-!
# Sizes of the data section

The loop over the tensors computes in 64 bits.  What it computes stays in range exactly where the
numbers themselves do.
-/

set_option autoImplicit false

namespace LlamaCpp.Gguf

open LlamaCpp.Lib List
open LlamaCpp.Ggml

def FineAll (steps : List Step) : Prop := ∀ step ∈ steps, step.Fine

@[simp] theorem fineAll_nil : FineAll [] := fun _ impossible => absurd impossible not_mem_nil

@[simp] theorem fineAll_cons {step : Step} {rest : List Step} :
    FineAll (step :: rest) ↔ step.Fine ∧ FineAll rest := forall_mem_cons

@[simp] theorem fineAll_append {first second : List Step} :
    FineAll (first ++ second) ↔ FineAll first ∧ FineAll second := forall_mem_append

@[simp] theorem fine_size {value : Nat} : (Step.size value).Fine ↔ value < 2 ^ 64 := Iff.rfl

@[simp] theorem fine_divisor {value : Nat} : (Step.divisor value).Fine ↔ value ≠ 0 := Iff.rfl

theorem toNat_ne_zero {x : BitVec 64} : x.toNat ≠ 0 ↔ x ≠ 0 :=
  not_congr (BitVec.toNat_inj (y := 0))

theorem toNat_ggmlPad64 {x n : BitVec 64} (some_ : n ≠ 0) (fits : x.toNat + n.toNat < 2 ^ 64) :
    (ggmlPad64 x n).toNat = ggmlPad x.toNat n.toNat := by
  have positive : 0 < n.toNat := Nat.pos_of_ne_zero (toNat_ne_zero.mpr some_)
  have one : (1 : BitVec 64).toNat = 1 := rfl
  have mask : (n - 1).toNat = n.toNat - 1 :=
    BitVec.toNat_sub_of_le (by exact positive)
  have sum : (x + n - 1).toNat = x.toNat + n.toNat - 1 := by
    have added : (x + n).toNat = x.toNat + n.toNat := by
      rw [BitVec.toNat_add, Nat.mod_eq_of_lt fits]
    rw [BitVec.toNat_sub_of_le (by rw [BitVec.le_def, added]; omega), added, one]
  apply Nat.eq_of_testBit_eq
  intro i
  rw [ggmlPad64, ggmlPad, Nat.testBit_ldiff, ← mask, ← sum, BitVec.testBit_toNat,
    BitVec.testBit_toNat, BitVec.testBit_toNat, BitVec.getLsbD_and, BitVec.getLsbD_not]
  by_cases inside : i < 64
  · rw [decide_eq_true inside, Bool.true_and]
  · rw [BitVec.getLsbD_of_ge _ _ (Nat.le_of_not_lt inside), Bool.false_and, Bool.false_and]

section

variable (types : TypeTraits)

def rowSteps (type : BitVec 32) (ne : BitVec 64) : List Step :=
  [.size ((types.typeSize type).toNat * ne.toNat), .divisor (types.blckSize type).toNat,
    .size ((types.rowMetaSize type).toNat +
      (types.typeSize type * ne / types.blckSize type).toNat)]

structure RowFits (type : BitVec 32) (ne : BitVec 64) : Prop where
  product : (types.typeSize type).toNat * ne.toNat < 2 ^ 64
  row : exactRowSize types type ne < 2 ^ 64

variable {types} {type : BitVec 32} {ne : BitVec 64}

theorem adds_noteRowSize :
    Adds (noteRowSize types type ne) (.ok (rowSize types type ne)) (rowSteps types type ne) :=
  (adds_note _).bind ((adds_note _).bind ((adds_note _).bind (adds_pure _)))

theorem toNat_quotient (product : (types.typeSize type).toNat * ne.toNat < 2 ^ 64) :
    (types.typeSize type * ne / types.blckSize type).toNat =
      (types.typeSize type).toNat * ne.toNat / (types.blckSize type).toNat := by
  rw [BitVec.toNat_udiv, BitVec.toNat_mul, Nat.mod_eq_of_lt product]

theorem fineAll_rowSteps (blocks : types.blckSize type ≠ 0) :
    FineAll (rowSteps types type ne) ↔ RowFits types type ne := by
  rw [rowSteps, fineAll_cons, fineAll_cons, fineAll_cons, fine_size]
  constructor
  · rintro ⟨product, -, row, -⟩
    rw [toNat_quotient product] at row
    exact ⟨product, row⟩
  · rintro ⟨product, row⟩
    rw [toNat_quotient product]
    exact ⟨product, toNat_ne_zero.mpr blocks, row, fineAll_nil⟩

theorem RowFits.toNat_rowSize (fits : RowFits types type ne) :
    (rowSize types type ne).toNat = exactRowSize types type ne := by
  rw [rowSize, BitVec.toNat_add, toNat_quotient fits.product]
  exact Nat.mod_eq_of_lt fits.row

theorem RowFits.mono {less : BitVec 64} (fits : RowFits types type ne)
    (fewer : less.toNat ≤ ne.toNat) : RowFits types type less where
  product := (Nat.mul_le_mul_left _ fewer).trans_lt fits.product
  row := lt_of_le_of_lt
    (Nat.add_le_add_left (Nat.div_le_div_right (Nat.mul_le_mul_left _ fewer)) _) fits.row

end

section

variable (types : TypeTraits) (alignment : Nat)

def Whole {S : Type} (info : TensorInfo S) : Prop :=
  (nelements info).toInt.tmod (types.blckSize info.type).toInt = 0

instance {S : Type} (info : TensorInfo S) : Decidable (Whole types info) :=
  inferInstanceAs (Decidable (_ = _))

def counted {S : Type} (infos : List (TensorInfo S)) : List (TensorInfo S) :=
  infos.takeWhile fun info => decide (Whole types info)

def exactSize {S : Type} (info : TensorInfo S) : Nat := exactRowSize types info.type (nelements info)

def exactTotal {S : Type} (infos : List (TensorInfo S)) : Nat :=
  (infos.map fun info => ggmlPad (exactSize types info) alignment).sum

structure TensorFits {S : Type} (info : TensorInfo S) : Prop where
  product : (types.typeSize info.type).toNat * (nelements info).toNat < 2 ^ 64
  padded : exactSize types info + alignment < 2 ^ 64

/-- Up to where the loop ends, no block size is zero, and the sizes and their sum are in range. -/
structure SizesFit {S : Type} (infos : List (TensorInfo S)) : Prop where
  blocks : ∀ info ∈ infos.take ((counted types infos).length + 1),
    types.blckSize info.type ≠ 0
  tensors : ∀ info ∈ counted types infos, TensorFits types alignment info
  total : exactTotal types alignment (counted types infos) < 2 ^ 64

def FitsFrom {S : Type} : Nat → List (TensorInfo S) → Prop
  | _, [] => True
  | total, info :: rest =>
    types.blckSize info.type ≠ 0 ∧ (Whole types info →
      TensorFits types alignment info ∧
      total + ggmlPad (exactSize types info) alignment < 2 ^ 64 ∧
      FitsFrom (total + ggmlPad (exactSize types info) alignment) rest)

variable {types alignment} {S : Type} {info : TensorInfo S} {infos : List (TensorInfo S)}

theorem fitsFrom_iff {total : Nat} (small : total < 2 ^ 64) : FitsFrom types alignment total infos ↔
    (∀ info ∈ infos.take ((counted types infos).length + 1),
      types.blckSize info.type ≠ 0) ∧
    (∀ info ∈ counted types infos, TensorFits types alignment info) ∧
    total + exactTotal types alignment (counted types infos) < 2 ^ 64 := by
  induction infos generalizing total with
  | nil =>
    exact ⟨fun _ => ⟨fun _ none => absurd none not_mem_nil,
      fun _ none => absurd none not_mem_nil, small⟩, fun _ => trivial⟩
  | cons info rest ih =>
    rw [counted, takeWhile_cons]
    by_cases whole : Whole types info
    · rw [if_pos (decide_eq_true whole), take_succ_cons,
        forall_mem_cons, forall_mem_cons, exactTotal, map_cons, sum_cons,
        ← add_assoc]
      constructor
      · rintro ⟨blocks, counted⟩
        obtain ⟨fits, sum, later⟩ := counted whole
        obtain ⟨blocksLater, fitsLater, total⟩ := (ih sum).mp later
        exact ⟨⟨blocks, blocksLater⟩, ⟨fits, fitsLater⟩, total⟩
      · rintro ⟨⟨blocks, blocksLater⟩, ⟨fits, fitsLater⟩, total⟩
        have sum := lt_of_le_of_lt (Nat.le_add_right _ _) total
        exact ⟨blocks, fun _ => ⟨fits, sum, (ih sum).mpr ⟨blocksLater, fitsLater, total⟩⟩⟩
    · rw [if_neg (by rw [decide_eq_true_eq]; exact whole), length_nil, take_succ_cons,
        take_zero, forall_mem_singleton]
      exact ⟨fun fits => ⟨fits.1, fun _ none => absurd none not_mem_nil, small⟩,
        fun fits => ⟨fits.1, fun holds => absurd holds whole⟩⟩

theorem fitsFrom_zero : FitsFrom types alignment 0 infos ↔ SizesFit types alignment infos := by
  rw [fitsFrom_iff (Nat.two_pow_pos 64), Nat.zero_add]
  exact ⟨fun ⟨blocks, tensors, total⟩ => ⟨blocks, tensors, total⟩,
    fun ⟨blocks, tensors, total⟩ => ⟨blocks, tensors, total⟩⟩

theorem adds_addSize_refused {size : BitVec 64}
    (refused : ¬ (types.blckSize info.type ≠ 0 ∧ Whole types info)) :
    ∃ message, Adds (addSize types alignment size info) (.error message)
      [.divisor (types.blckSize info.type).toNat] := by
  by_cases zero : types.blckSize info.type = 0
  · exact ⟨_, (adds_note _).bind (by rw [if_pos zero]; exact adds_throw _)⟩
  · have partly : (nelements info).toInt.tmod (types.blckSize info.type).toInt ≠ 0 :=
      fun whole => refused ⟨zero, whole⟩
    exact ⟨_, (adds_note _).bind (by rw [if_neg zero, if_pos partly]; exact adds_throw _)⟩

variable (types alignment info) in
def paddedSize64 : BitVec 64 :=
  ggmlPad64 (rowSize types info.type (nelements info)) (BitVec.ofNat 64 alignment)

variable (types alignment info) in
def countedSteps (size : BitVec 64) : List Step :=
  .divisor (types.blckSize info.type).toNat :: (rowSteps types info.type (nelements info) ++
    [.size ((rowSize types info.type (nelements info)).toNat + (BitVec.ofNat 64 alignment).toNat),
      .size (size.toNat + (paddedSize64 types alignment info).toNat)])

theorem adds_addSize {size : BitVec 64} (blocks : types.blckSize info.type ≠ 0)
    (whole : Whole types info) :
    Adds (addSize types alignment size info) (.ok (size + paddedSize64 types alignment info))
      (countedSteps types alignment info size) := by
  have no : ¬ (nelements info).toInt.tmod (types.blckSize info.type).toInt ≠ 0 := not_not.mpr whole
  refine (adds_note _).bind ?_
  rw [if_neg blocks, if_neg no]
  exact adds_noteRowSize.bind ((adds_note _).bind ((adds_note _).bind (adds_pure _)))

theorem TensorFits.rowFits (fits : TensorFits types alignment info) :
    RowFits types info.type (nelements info) where
  product := fits.product
  row := lt_of_le_of_lt (Nat.le_add_right _ _) fits.padded

section

variable (align : alignment ≠ 0) (small : alignment < 2 ^ 64)

include small in
theorem toNat_alignment : (BitVec.ofNat 64 alignment).toNat = alignment := by
  rw [BitVec.toNat_ofNat, Nat.mod_eq_of_lt small]

include align small

theorem TensorFits.toNat_paddedSize64 (fits : TensorFits types alignment info) :
    (paddedSize64 types alignment info).toNat = ggmlPad (exactSize types info) alignment := by
  have some_ : BitVec.ofNat 64 alignment ≠ 0 := by
    rw [← toNat_ne_zero, toNat_alignment small]
    exact align
  have value := fits.rowFits.toNat_rowSize
  have room := fits.padded
  rw [exactSize, ← value, ← toNat_alignment small] at room
  rw [paddedSize64, toNat_ggmlPad64 some_ room, value, toNat_alignment small, exactSize]

theorem fineAll_countedSteps {size : BitVec 64} (blocks : types.blckSize info.type ≠ 0) :
    FineAll (countedSteps types alignment info size) ↔ TensorFits types alignment info ∧
      size.toNat + ggmlPad (exactSize types info) alignment < 2 ^ 64 := by
  rw [countedSteps, fineAll_cons, fineAll_append, fineAll_rowSteps blocks, fineAll_cons,
    fineAll_cons, toNat_alignment small]
  constructor
  · rintro ⟨-, row, room, sum, -⟩
    rw [row.toNat_rowSize] at room
    have fits : TensorFits types alignment info := ⟨row.product, room⟩
    rw [fits.toNat_paddedSize64 align small] at sum
    exact ⟨fits, sum⟩
  · rintro ⟨fits, sum⟩
    rw [fits.toNat_paddedSize64 align small, fits.rowFits.toNat_rowSize]
    exact ⟨toNat_ne_zero.mpr blocks, fits.rowFits, fits.padded, sum, fineAll_nil⟩

/-- The whole loop: what it computes stays in range where the numbers do, and it returns where all
elements are whole blocks. -/
theorem adds_foldlM_addSize (size : BitVec 64) (infos : List (TensorInfo S)) :
    ∃ result added, Adds (infos.foldlM (addSize types alignment) size) result added ∧
      (FineAll added ↔ FitsFrom types alignment size.toNat infos) ∧
      ((∀ info ∈ infos, types.blckSize info.type ≠ 0 ∧ Whole types info) →
        ∃ total, result = .ok total ∧
          (FineAll added → total.toNat = size.toNat + exactTotal types alignment infos)) ∧
      ((∃ info ∈ infos, ¬ (types.blckSize info.type ≠ 0 ∧ Whole types info)) →
        ∃ message, result = .error message) := by
  induction infos generalizing size with
  | nil =>
    refine ⟨.ok size, [], adds_pure size, ⟨fun _ => trivial, fun _ => fineAll_nil⟩,
      fun _ => ⟨size, rfl, fun _ => rfl⟩, ?_⟩
    rintro ⟨info, member, -⟩
    cases member
  | cons info rest ih =>
    by_cases goesOn : types.blckSize info.type ≠ 0 ∧ Whole types info
    · obtain ⟨blocks, whole⟩ := goesOn
      obtain ⟨result, added, adds, fine, returns, stops⟩ :=
        ih (size + paddedSize64 types alignment info)
      have first : FineAll (countedSteps types alignment info size) ↔ _ :=
        fineAll_countedSteps align small blocks
      have next (fits : TensorFits types alignment info ∧
          size.toNat + ggmlPad (exactSize types info) alignment < 2 ^ 64) :
          (size + paddedSize64 types alignment info).toNat =
            size.toNat + ggmlPad (exactSize types info) alignment := by
        rw [BitVec.toNat_add, fits.1.toNat_paddedSize64 align small, Nat.mod_eq_of_lt fits.2]
      refine ⟨result, _, (adds_addSize blocks whole).bind adds, ?_, ?_, ?_⟩
      · rw [fineAll_append, first, fine]
        constructor
        · rintro ⟨fits, later⟩
          rw [next fits] at later
          exact ⟨blocks, fun _ => ⟨fits.1, fits.2, later⟩⟩
        · rintro ⟨-, counts⟩
          obtain ⟨fits, sum, later⟩ := counts whole
          rw [next ⟨fits, sum⟩]
          exact ⟨⟨fits, sum⟩, later⟩
      · intro wholes
        obtain ⟨total, same, value⟩ :=
          returns fun other member => wholes other (mem_cons_of_mem _ member)
        refine ⟨total, same, fun all => ?_⟩
        obtain ⟨here, later⟩ := fineAll_append.mp all
        rw [value later, next (first.mp here), exactTotal, exactTotal, map_cons,
          sum_cons, add_assoc]
      · rintro ⟨other, member, refused⟩
        rcases mem_cons.mp member with same | behind
        · exact absurd ⟨blocks, whole⟩ (same ▸ refused)
        · exact stops ⟨other, behind, refused⟩
    · obtain ⟨message, adds⟩ : ∃ message, Adds (addSize types alignment size info) _ _ :=
        adds_addSize_refused goesOn
      refine ⟨.error message, _, adds.bind_error, ?_,
        fun wholes => absurd (wholes info mem_cons_self) goesOn, fun _ => ⟨message, rfl⟩⟩
      rw [fineAll_cons, fine_divisor, toNat_ne_zero]
      constructor
      · exact fun fine => ⟨fine.1, fun whole => absurd ⟨fine.1, whole⟩ goesOn⟩
      · exact fun fits => ⟨fits.1, fineAll_nil⟩

end

end

end LlamaCpp.Gguf
