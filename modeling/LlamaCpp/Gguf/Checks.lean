import LlamaCpp.Gguf.Read

/-!
# What the checks rule out

Up to the end of the tensor infos, the checks of the reader keep every size below 2^64 and every
divisor from being zero, whatever the bytes are; and the infos that it returns can be counted.
-/

set_option autoImplicit false

namespace LlamaCpp.Gguf

open LlamaCpp.Lib List
open LlamaCpp.Ggml

theorem toNat_mul_of_lt_div {x y : BitVec 64} (less : x < int64Max / y) :
    (x * y).toNat = x.toNat * y.toNat ∧ (x * y).toNat < 2 ^ 63 := by
  have most : int64Max.toNat = 2 ^ 63 - 1 := by decide
  have bound : x.toNat * y.toNat ≤ int64Max.toNat :=
    (Nat.mul_le_mul_right _ (Nat.le_of_lt less)).trans (Nat.div_mul_le_self ..)
  rw [BitVec.toNat_mul, Nat.mod_eq_of_lt (by omega)]
  exact ⟨rfl, by omega⟩

variable {S : Type} {info : TensorInfo S}

theorem sanitize_eq_true : sanitize info = true ↔
    wellShaped info = true ∧ info.ne 0 < int64Max / info.ne 1 ∧
      info.ne 0 * info.ne 1 < int64Max / info.ne 2 ∧
      info.ne 0 * info.ne 1 * info.ne 2 < int64Max / info.ne 3 := by
  rw [sanitize, Bool.and_eq_true_iff, Bool.and_eq_true_iff, Bool.and_eq_true_iff, decide_eq_true_iff,
    decide_eq_true_iff, decide_eq_true_iff, and_assoc, and_assoc]

theorem toNat_nelements (sane : sanitize info = true) : (nelements info).toNat =
        (info.ne 0).toNat * (info.ne 1).toNat * (info.ne 2).toNat * (info.ne 3).toNat ∧
      (nelements info).toNat < 2 ^ 63 := by
  obtain ⟨-, one, two, three⟩ := sanitize_eq_true.mp sane
  have first := toNat_mul_of_lt_div one
  have second := toNat_mul_of_lt_div two
  have third := toNat_mul_of_lt_div three
  rw [second.1, first.1] at third
  exact third

theorem returns_ggmlAssert {condition : Bool} (returned : Returns (ggmlAssert condition) ()) :
    condition = true := by
  rcases returns_ite returned with ⟨holds, -⟩ | ⟨-, failed⟩
  · exact holds
  · exact absurd failed not_returns_throw

theorem returns_assertCount {count dim : BitVec 64} (returned : Returns (assertCount count dim) ()) :
    count < int64Max / dim := by
  obtain ⟨_, -, rest⟩ := returns_bind returned
  obtain ⟨_, passed, -⟩ := returns_bind rest
  exact of_decide_eq_true (returns_ggmlAssert passed)

theorem returns_assertSane (returned : Returns (assertSane info) ()) : sanitize info = true := by
  obtain ⟨_, plain, rest⟩ := returns_bind returned
  obtain ⟨_, one, rest⟩ := returns_bind rest
  obtain ⟨_, two, three⟩ := returns_bind rest
  exact sanitize_eq_true.mpr ⟨returns_ggmlAssert plain, returns_assertCount one,
    returns_assertCount two, returns_assertCount three⟩

def Flat {S : Type} (info : TensorInfo S) : Prop :=
  ∀ i : Fin 4, info.nDims.toNat ≤ i.val → info.ne i = 1

theorem Flat.ne_pos (flat : Flat info) (plain : wellShaped info = true) (i : Fin 4) :
    0 < (info.ne i).toNat := by
  by_cases used : i.val < info.nDims.toNat
  · exact of_decide_eq_true (Bool.and_eq_true_iff.mp plain).2 i used
  · rw [flat i (Nat.le_of_not_lt used)]
    exact Nat.one_pos

theorem notes_size {value : Nat} (fits : value < 2 ^ 64) : Notes Step.Fine (note (.size value)) :=
  notes_note fits

theorem notes_divisor {value : Nat} (some_ : value ≠ 0) :
    Notes Step.Fine (note (.divisor value)) := notes_note some_

theorem notes_freadStr (failure : String) : Notes Step.Fine (freadStr failure) := by
  refine (notes_freadEl failure Layout.u64).bind fun n => ?_
  refine notes_ite (fun _ => notes_throw failure) fun allowed => ?_
  have fits : n.toNat + 1 < 2 ^ 64 := by
    rw [sizeMax] at allowed
    omega
  exact (notes_size fits).bind fun _ => notes_fread _ _

theorem fits_of_not_tooLarge {n size : Nat} (allowed : ¬ sizeMax / size ≤ n) : n * size < 2 ^ 64 := by
  have bound : n * size ≤ sizeMax :=
    (Nat.mul_le_mul_right size (Nat.le_of_not_le allowed)).trans (Nat.div_mul_le_self ..)
  rw [sizeMax] at bound
  omega

theorem notes_freadArr (n : BitVec 64) (type : GgufType) : Notes Step.Fine (freadArr n type) := by
  cases type with
  | scalar type =>
    have some_ : type.size ≠ 0 := by cases type <;> exact Nat.succ_ne_zero _
    refine (notes_divisor some_).bind fun _ => ?_
    refine notes_ite (fun _ => notes_throw _) fun allowed => ?_
    refine (notes_size (fits_of_not_tooLarge allowed)).bind fun _ => ?_
    exact Notes.bind (notes_fread _ _) fun _ => notes_pure _
  | string =>
    refine notes_ite (fun _ => notes_throw _) fun allowed => ?_
    refine (notes_size (fits_of_not_tooLarge allowed)).bind fun _ => ?_
    exact (notes_repeatRead (notes_freadStr kvFailure) n.toNat).bind fun _ => notes_pure _
  | array => exact notes_throw _

theorem notes_freadValue (type : GgufType) : Notes Step.Fine (freadValue type) := by
  cases type with
  | scalar type => exact Notes.bind (notes_freadEl _ _) fun _ => notes_pure _
  | string => exact (notes_freadStr kvFailure).bind fun _ => notes_pure _
  | array =>
    refine Notes.bind (notes_freadEl _ _) fun code => Notes.bind (notes_freadEl _ _) fun n => ?_
    cases GgufType.ofCode code with
    | some type => exact notes_freadArr n type
    | none => exact notes_throw _

theorem notes_freadKv : Notes Step.Fine freadKv := by
  refine (notes_freadStr kvFailure).bind fun key => Notes.bind (notes_freadEl _ _) fun code => ?_
  cases GgufType.ofCode code with
  | some type => exact (notes_freadValue type).bind fun _ => notes_pure _
  | none => exact notes_throw _

theorem notes_ggmlAssert (condition : Bool) : Notes Step.Fine (ggmlAssert condition) :=
  notes_ite (fun _ => notes_pure ()) fun _ => notes_throw _

theorem notes_assertCount {count dim : BitVec 64} (positive : 0 < dim.toNat) :
    Notes Step.Fine (assertCount count dim) := by
  refine (notes_divisor (ne_of_gt positive)).bind fun _ => ?_
  refine (notes_ggmlAssert _).bind_returns fun _ passed => ?_
  obtain ⟨product, small⟩ := toNat_mul_of_lt_div (of_decide_eq_true (returns_ggmlAssert passed))
  have fits : count.toNat * dim.toNat < 2 ^ 64 := by
    omega
  exact notes_size fits

theorem notes_assertSane (flat : Flat info) : Notes Step.Fine (assertSane info) := by
  refine (notes_ggmlAssert _).bind_returns fun _ passed => ?_
  have positive := flat.ne_pos (returns_ggmlAssert passed)
  refine (notes_assertCount (positive 1)).bind fun _ => ?_
  exact (notes_assertCount (positive 2)).bind fun _ => notes_assertCount (positive 3)

theorem notes_freadInfoFields : Notes Step.Fine freadInfoFields := by
  refine (notes_freadStr infoFailure).bind fun name => Notes.bind (notes_freadEl _ _) fun nDims => ?_
  refine notes_ite (fun _ => notes_throw _) fun _ => ?_
  refine (notes_repeatRead (notes_freadEl _ _) nDims.toNat).bind fun ne => ?_
  exact Notes.bind (notes_freadEl _ _) fun type => Notes.bind (notes_freadEl _ _) fun offset => notes_pure _

theorem returns_freadInfoFields {info : TensorInfo Bytes}
    (returned : Returns freadInfoFields info) : Flat info := by
  obtain ⟨name, -, rest⟩ := returns_bind returned
  obtain ⟨nDims, -, rest⟩ := returns_bind rest
  rcases returns_ite rest with ⟨-, failed⟩ | ⟨-, rest⟩
  · exact absurd failed not_returns_throw
  · obtain ⟨ne, dims, rest⟩ := returns_bind rest
    obtain ⟨type, -, rest⟩ := returns_bind rest
    obtain ⟨offset, -, last⟩ := returns_bind rest
    have length := length_repeatRead dims
    rw [returns_pure last]
    intro i beyond
    change nDims.toNat ≤ i.val at beyond
    change ne.getD i 1 = 1
    rw [getD_eq_getElem?_getD, List.getElem?_eq_none (by omega)]
    rfl

structure CheckedInfo (info : TensorInfo Bytes) : Prop where
  sane : sanitize info = true
  flat : Flat info

theorem notes_freadInfo : Notes Step.Fine freadInfo := by
  refine notes_freadInfoFields.bind_returns fun info fields => ?_
  exact (notes_assertSane (returns_freadInfoFields fields)).bind fun _ => notes_pure info

theorem returns_freadInfo {info : TensorInfo Bytes} (returned : Returns freadInfo info) :
    CheckedInfo info := by
  obtain ⟨fields, read, rest⟩ := returns_bind returned
  obtain ⟨_, passed, last⟩ := returns_bind rest
  rw [returns_pure last]
  exact ⟨returns_assertSane passed, returns_freadInfoFields read⟩

theorem notes_freadInfos (count : Nat) (before : List (TensorInfo Bytes)) :
    Notes Step.Fine (freadInfos count before) := by
  induction count generalizing before with
  | zero => exact notes_pure before
  | succ count ih =>
    refine notes_freadInfo.bind fun info => ?_
    exact notes_ite (fun _ => notes_throw _) fun _ => ih _

theorem returns_freadInfos {count : Nat} {before infos : List (TensorInfo Bytes)}
    (checked : ∀ info ∈ before, CheckedInfo info) (returned : Returns (freadInfos count before) infos) :
    infos.length = before.length + count ∧ ∀ info ∈ infos, CheckedInfo info := by
  induction count generalizing before with
  | zero =>
    rw [returns_pure returned]
    exact ⟨rfl, checked⟩
  | succ count ih =>
    obtain ⟨info, read, rest⟩ := returns_bind returned
    rcases returns_ite rest with ⟨-, failed⟩ | ⟨-, rest⟩
    · exact absurd failed not_returns_throw
    · have both : ∀ other ∈ before ++ [info], CheckedInfo other := by
        intro other member
        rcases mem_append.mp member with old | new
        · exact checked other old
        · rw [mem_singleton.mp new]
          exact returns_freadInfo read
      have all := ih both rest
      rw [length_append, length_singleton] at all
      exact ⟨by omega, all.2⟩

theorem headerOk_bounds {nTensors nKv : BitVec 64} (allowed : headerOk nTensors nKv = true) :
    nTensors.toNat * infoSize < 2 ^ 64 ∧ (nTensors.toNat + 1) * tensorOverhead + 16 < 2 ^ 64 ∧
      nKv.toNat * kvSize < 2 ^ 64 := by
  rw [headerOk, sizeMax, kvSize, tensorOverhead, Bool.and_eq_true_iff,
    Bool.and_eq_true_iff, decide_eq_true_iff, decide_eq_true_iff, decide_eq_true_iff] at allowed
  rw [infoSize, tensorOverhead, kvSize]
  omega

theorem notes_freadMeta : Notes Step.Fine freadMeta := by
  refine Notes.bind (notes_fread _ _) fun magic => notes_ite (fun _ => notes_throw _) fun _ => ?_
  refine Notes.bind (notes_freadEl _ _) fun version => ?_
  refine Notes.bind (notes_freadEl _ _) fun nTensors => Notes.bind (notes_freadEl _ _) fun nKv => ?_
  refine notes_ite (fun _ => notes_throw _) fun _ => notes_ite (fun allowed => ?_) fun _ => notes_throw _
  obtain ⟨tensors, -, pairs⟩ := headerOk_bounds allowed
  refine (notes_size pairs).bind fun _ => (notes_repeatRead notes_freadKv _).bind fun kv => ?_
  exact (notes_size tensors).bind fun _ => (notes_freadInfos _ []).bind fun _ => notes_pure _

theorem returns_freadMeta {kv : List (Kv Bytes)} {infos : List (TensorInfo Bytes)}
    (returned : Returns freadMeta (kv, infos)) :
    (infos.length + 1) * tensorOverhead + 16 < 2 ^ 64 ∧ ∀ info ∈ infos, CheckedInfo info := by
  obtain ⟨magic, -, rest⟩ := returns_bind returned
  rcases returns_ite rest with ⟨-, failed⟩ | ⟨-, rest⟩
  · exact absurd failed not_returns_throw
  obtain ⟨version, -, rest⟩ := returns_bind rest
  obtain ⟨nTensors, -, rest⟩ := returns_bind rest
  obtain ⟨nKv, -, rest⟩ := returns_bind rest
  rcases returns_ite rest with ⟨-, failed⟩ | ⟨-, rest⟩
  · exact absurd failed not_returns_throw
  rcases returns_ite rest with ⟨allowed, rest⟩ | ⟨-, failed⟩
  · obtain ⟨_, -, rest⟩ := returns_bind rest
    obtain ⟨pairs, -, rest⟩ := returns_bind rest
    obtain ⟨_, -, rest⟩ := returns_bind rest
    obtain ⟨tensors, read, last⟩ := returns_bind rest
    cases returns_pure last
    have all := returns_freadInfos (fun _ impossible => absurd impossible not_mem_nil) read
    rw [length_nil, zero_add] at all
    rw [all.1]
    exact ⟨(headerOk_bounds allowed).2.1, all.2⟩
  · exact absurd failed not_returns_throw

def TooShort (params : InitParams) (size available : Nat) : Prop :=
  params.ctx = true ∧ params.noAlloc = false ∧ available < size

end LlamaCpp.Gguf
