import LlamaCpp.Gguf.Read
import LlamaCpp.Lib.Ensures
import Mathlib.Algebra.BigOperators.Group.List.Basic

/-!
# Contexts that are built from an empty one

What holds of a context after any sequence of calls, and where the data of its tensors stands in
what is written.
-/

set_option autoImplicit false

namespace LlamaCpp.Gguf

open LlamaCpp.Lib List
open LlamaCpp.Ggml

theorem ggmlPad_two_pow (x k : Nat) : ggmlPad x (2 ^ k) = alignOffset (2 ^ k) x := by
  have positive : 0 < 2 ^ k := Nat.two_pow_pos k
  have down : ggmlPad x (2 ^ k) = (x + 2 ^ k - 1) / 2 ^ k * 2 ^ k := by
    rw [ggmlPad, ← Nat.shiftRight_eq_div_pow, ← Nat.shiftLeft_eq]
    apply Nat.eq_of_testBit_eq
    intro i
    by_cases low : i < k
    · simp [low]
    · have high : k ≤ i := Nat.le_of_not_lt low
      simp [high]
  rw [down, alignOffset]
  generalize 2 ^ k = n at positive
  have whole := Nat.div_add_mod x n
  have less := Nat.mod_lt x positive
  rw [Nat.mul_comm] at whole
  split
  · have split : x + n - 1 = (x % n - 1) + n * (x / n + 1) := by
      rw [Nat.mul_add, Nat.mul_comm n]
      omega
    rw [split, Nat.add_mul_div_left _ _ positive, Nat.div_eq_of_lt (by omega), Nat.zero_add,
      Nat.add_mul]
    omega
  · have split : x + n - 1 = (n - 1) + n * (x / n) := by
      rw [mul_comm n]
      omega
    rw [split, Nat.add_mul_div_left _ _ positive, Nat.div_eq_of_lt (by omega), zero_add]
    omega

theorem le_alignOffset (alignment offset : Nat) : offset ≤ alignOffset alignment offset := by
  rw [alignOffset]
  split
  · exact Nat.le_add_right ..
  · exact Nat.le_refl offset

theorem ggmlPad_defaultAlignment (x : Nat) :
    ggmlPad x defaultAlignment = alignOffset defaultAlignment x :=
  ggmlPad_two_pow x 5

theorem length_bwritePadded (bytes : Bytes) :
    (bwritePadded defaultAlignment bytes).length = alignOffset defaultAlignment bytes.length := by
  have more := le_alignOffset defaultAlignment bytes.length
  rw [bwritePadded, length_append, length_replicate, ggmlPad_defaultAlignment]
  omega

def dataSection (entries : List TensorEntry) : Bytes :=
  entries.flatMap fun entry => bwritePadded defaultAlignment entry.data

def Placed : BitVec 64 → List TensorEntry → Prop
  | _, [] => True
  | offset, entry :: rest =>
    entry.info.offset = offset ∧
      Placed (offset + BitVec.ofNat 64 (ggmlPad entry.data.length defaultAlignment)) rest

def nextOffset (entries : List TensorEntry) : BitVec 64 :=
  match entries.getLast? with
  | none => 0
  | some last =>
    last.info.offset + BitVec.ofNat 64 (ggmlPad last.data.length defaultAlignment)

theorem dataSection_append (first second : List TensorEntry) :
    dataSection (first ++ second) = dataSection first ++ dataSection second :=
  flatMap_append

theorem dataSection_cons (entry : TensorEntry) (rest : List TensorEntry) :
    dataSection (entry :: rest) = bwritePadded defaultAlignment entry.data ++ dataSection rest :=
  flatMap_cons

theorem ofNat_length_dataSection (start : Nat) (entry : TensorEntry) :
    BitVec.ofNat 64 start + BitVec.ofNat 64 (ggmlPad entry.data.length defaultAlignment) =
      BitVec.ofNat 64 (start + (bwritePadded defaultAlignment entry.data).length) := by
  rw [length_bwritePadded, ggmlPad_defaultAlignment, BitVec.ofNat_add]

theorem Placed.offset {start : Nat} {before : List TensorEntry} {entry : TensorEntry}
    {after : List TensorEntry} (placed : Placed (BitVec.ofNat 64 start) (before ++ entry :: after)) :
    entry.info.offset = BitVec.ofNat 64 (start + (dataSection before).length) := by
  induction before generalizing start with
  | nil => exact placed.1
  | cons first rest ih =>
    have later := placed.2
    rw [ofNat_length_dataSection] at later
    rw [ih later, dataSection_cons, length_append, add_assoc]

variable {entries : List TensorEntry}

theorem Placed.append {start : Nat} {entry : TensorEntry}
    (placed : Placed (BitVec.ofNat 64 start) entries)
    (here : entry.info.offset = BitVec.ofNat 64 (start + (dataSection entries).length)) :
    Placed (BitVec.ofNat 64 start) (entries ++ [entry]) := by
  induction entries generalizing start with
  | nil => exact ⟨here, trivial⟩
  | cons first rest ih =>
    refine ⟨placed.1, ?_⟩
    have later := placed.2
    rw [ofNat_length_dataSection] at later ⊢
    rw [dataSection_cons, length_append, ← add_assoc] at here
    exact ih later here

theorem Placed.nextOffset_eq (placed : Placed 0 entries) :
    nextOffset entries = BitVec.ofNat 64 (dataSection entries).length := by
  rcases eq_nil_or_concat' entries with none | ⟨before, last, some_⟩
  · rw [none]
    rfl
  · rw [some_] at placed ⊢
    have start : last.info.offset = BitVec.ofNat 64 (0 + (dataSection before).length) :=
      Placed.offset placed
    rw [nextOffset, List.getLast?_concat]
    change last.info.offset + _ = _
    rw [start, zero_add, ofNat_length_dataSection, dataSection_append, dataSection_cons,
      length_append, length_append]
    rfl

theorem Placed.bwriteData {offset : BitVec 64} (placed : Placed offset entries) :
    bwriteData defaultAlignment offset entries = .ok (dataSection entries) := by
  induction entries generalizing offset with
  | nil => rfl
  | cons entry rest ih =>
    rw [Gguf.bwriteData, if_pos placed.1.symm, ih placed.2]
    rfl

section

variable {types : TypeTraits}

structure TensorEntry.Sound (types : TypeTraits) (entry : TensorEntry) : Prop where
  dims : entry.info.nDims.toNat ≤ 4
  flat : ∀ i : Fin 4, entry.info.nDims.toNat ≤ i.val → entry.info.ne i = 1
  blocks : 0 < (types.blckSize entry.info.type).toInt
  whole : (types.blckSize entry.info.type).toNat ∣ (entry.info.ne 0).toNat

structure Built (types : TypeTraits) (ctx : GgufContext) : Prop where
  alignment : ctx.alignment = defaultAlignment
  short : ∀ kv ∈ ctx.kv, kv.value.Short
  names : ctx.infos.Pairwise fun one other => other.info.name.bytes ≠ one.info.name.bytes
  placed : Placed 0 ctx.infos
  sound : ∀ entry ∈ ctx.infos, entry.Sound types

theorem built_initEmpty : Built types initEmpty where
  alignment := rfl
  short _ member := absurd member not_mem_nil
  names := List.Pairwise.nil
  placed := trivial
  sound _ member := absurd member not_mem_nil

variable {ctx : GgufContext}

theorem Built.withKv (built : Built types ctx) {kv : List (Kv CString)}
    (short : ∀ pair ∈ kv, pair.value.Short) : Built types { ctx with kv } :=
  { built with short }

theorem Built.setValue (built : Built types ctx) (key : CString) {value : GgufValue CString}
    (short : value.Short) : Built types (setValue ctx key value) := by
  rw [Gguf.setValue]
  split
  · refine built.withKv fun pair member => ?_
    obtain ⟨i, inside, rfl⟩ := mem_iff_getElem.mp member
    rw [getElem_modify]
    split
    · exact short
    · exact built.short _ (getElem_mem _)
  · refine built.withKv fun pair member => ?_
    rcases mem_append.mp member with before | new
    · exact built.short pair before
    · rw [mem_singleton.mp new]
      exact short

theorem Built.setKv (built : Built types ctx) {src : List (Kv CString)}
    (short : ∀ kv ∈ src, kv.value.Short) : Built types (setKv ctx src) := by
  rw [Gguf.setKv]
  induction src generalizing ctx with
  | nil => exact built
  | cons kv rest ih =>
    rw [foldl_cons, setKvValue_eq]
    exact ih (built.setValue kv.key (short kv mem_cons_self))
      fun other member => short other (mem_cons_of_mem _ member)

theorem Built.removeKey (built : Built types ctx) (key : CString) :
    Built types (removeKey ctx key) := by
  rw [Gguf.removeKey]
  split
  · exact built.withKv fun pair member => built.short pair (mem_of_mem_eraseIdx member)
  · exact built

theorem nDims_bounds (ne : Fin 4 → BitVec 64) :
    1 ≤ (nDims ne).toNat ∧ (nDims ne).toNat ≤ 4 := by
  rw [nDims]
  split
  · exact ⟨by decide, by decide⟩
  · split
    · exact ⟨by decide, by decide⟩
    · split
      · exact ⟨by decide, by decide⟩
      · exact ⟨by decide, by decide⟩

theorem Built.addTensor (built : Built types ctx) (tensor : GgmlTensor types) :
    Ensures (addTensor ctx tensor) (Built types) := by
  refine ensures_ite (fun _ => ensures_error) fun fresh => ensures_ok ?_
  have bounds := nDims_bounds tensor.ne
  have offset : (match ctx.infos.getLast? with
      | none => 0
      | some last => last.info.offset + BitVec.ofNat 64 (ggmlPad last.data.length ctx.alignment)) =
      BitVec.ofNat 64 (0 + (dataSection ctx.infos).length) := by
    rw [built.alignment, zero_add]
    exact built.placed.nextOffset_eq
  refine { built with names := ?_, placed := Placed.append built.placed offset, sound := ?_ }
  · refine pairwise_append.mpr ⟨built.names, pairwise_singleton .., ?_⟩
    intro one member other new same
    rw [mem_singleton.mp new] at same
    exact fresh (any_eq_true.mpr ⟨one, member, beq_iff_eq.mpr same.symm⟩)
  · intro entry member
    rcases mem_append.mp member with before | new
    · exact built.sound entry before
    · rw [mem_singleton.mp new]
      have first : (0 : Fin 4).val < (nDims tensor.ne).toNat := bounds.1
      exact
        { dims := bounds.2
          flat := fun i beyond => if_neg (not_lt.mpr beyond)
          blocks := tensor.blocks
          whole := by
            dsimp only
            rw [if_pos first]
            exact tensor.whole }

theorem Built.apply (built : Built types ctx) (call : Call types) :
    Ensures (call.apply ctx) (Built types) := by
  cases call with
  | setVal key type val =>
    rw [Call.apply, setKvValue_eq]
    exact ensures_ok (built.setValue key trivial)
  | setValStr key val => exact ensures_ok (built.setValue key trivial)
  | setArrData key type data short => exact ensures_ok (built.setValue key short)
  | setArrStr key data short => exact ensures_ok (built.setValue key short)
  | setKv src short => exact ensures_ok (built.setKv short)
  | removeKey key => exact ensures_ok (built.removeKey key)
  | addTensor tensor => exact built.addTensor tensor

theorem built_build (calls : List (Call types)) : Ensures (build calls) (Built types) := by
  have run (ctx : GgufContext) (built : Built types ctx) :
      Ensures (calls.foldlM (fun ctx call => call.apply ctx) ctx) (Built types) := by
    induction calls generalizing ctx with
    | nil => exact ensures_ok built
    | cons call rest ih =>
      exact (built.apply call).bind ih
  exact run initEmpty built_initEmpty

end

end LlamaCpp.Gguf
