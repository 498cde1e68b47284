import LlamaCpp.Gguf.Built
import LlamaCpp.Gguf.Checks
import Mathlib.Data.List.TakeWhile

/-!
# What was written is read

Every reader takes exactly the bytes that its writer put there.  A tensor that the reader's
assertions refuse stops it, wherever it stands among the others.
-/

set_option autoImplicit false

namespace LlamaCpp.Gguf

open LlamaCpp.Lib List
open LlamaCpp.Ggml

theorem toNat_ofNat_short {n : Nat} (short : n < 2 ^ 31) : (BitVec.ofNat 64 n).toNat = n := by
  exact Nat.mod_eq_of_lt (by omega)

theorem reads_freadStr (failure : String) (text : CString) :
    Reads (freadStr failure) (bwriteStr text) text.bytes := by
  have short := text.short
  have length : (BitVec.ofNat 64 text.bytes.length).toNat = text.bytes.length := by
    exact Nat.mod_eq_of_lt (by omega)
  have allowed : text.bytes.length ≠ sizeMax := by
    rw [sizeMax]
    omega
  refine (reads_freadEl failure Layout.u64 _).bind ?_
  rw [length, if_neg allowed]
  exact (reads_note _).after (reads_fread failure text.bytes)

theorem reads_items (type : ScalarType) (items : List type.Value) :
    Reads (σ := Step) (fread kvFailure (items.length * type.size)) (type.layout.writeMany items)
      (type.layout.writeMany items) := by
  have all := reads_fread (σ := Step) kvFailure (type.layout.writeMany items)
  rwa [Layout.length_writeMany] at all

theorem readMany_items (type : ScalarType) (items : List type.Value) :
    type.layout.readMany items.length (type.layout.writeMany items) = items := by
  have all := type.layout.readMany_writeMany items []
  rwa [append_nil] at all

/-- The limit on an array's length is far from what an `int` counts. -/
theorem not_tooLarge {size n : Nat} (width : size ≤ 16) (some_ : 0 < size) (short : n < 2 ^ 31) :
    ¬ sizeMax / size ≤ n := by
  have least : sizeMax / 16 ≤ sizeMax / size := Nat.div_le_div_left width some_
  have bound : sizeMax / 16 = 2 ^ 60 - 1 := by decide
  omega

theorem reads_freadValue (value : GgufValue CString) (short : value.Short) :
    Reads (freadValue value.type) (bwriteValue value) (value.map CString.bytes) := by
  cases value with
  | scalar type value => exact (reads_freadEl kvFailure type.layout value).map (reads_pure _)
  | str text => exact (reads_freadStr kvFailure text).map (reads_pure _)
  | arr type items =>
    have size : type.size ≤ 16 ∧ 0 < type.size := by cases type <;> decide
    refine (reads_freadEl kvFailure Layout.u32 _).bind ?_
    refine (reads_freadEl kvFailure Layout.u64 _).bind ?_
    rw [GgufType.ofCode_code]
    change Reads (freadArr _ (.scalar type)) _ _
    rw [freadArr, toNat_ofNat_short short, if_neg (not_tooLarge size.1 size.2 short)]
    refine (reads_note _).after ((reads_note _).after ((reads_items type items).map ?_))
    rw [readMany_items]
    exact reads_pure _
  | arrStr texts =>
    refine (reads_freadEl kvFailure Layout.u32 _).bind ?_
    refine (reads_freadEl kvFailure Layout.u64 _).bind ?_
    change Reads (freadArr _ .string) _ _
    rw [freadArr, strSize, toNat_ofNat_short short,
      if_neg (not_tooLarge (le_refl 16) (Nat.succ_pos 15) short)]
    refine (reads_note _).after ?_
    exact (reads_repeatRead fun text _ => reads_freadStr kvFailure text).map (reads_pure _)

theorem reads_freadKv (kv : Kv CString) (short : kv.value.Short) :
    Reads freadKv (bwriteKv kv) (kv.map CString.bytes) := by
  refine (reads_freadStr kvFailure kv.key).bind ?_
  refine (reads_freadEl kvFailure Layout.u32 _).bind ?_
  rw [GgufType.ofCode_code]
  exact (reads_freadValue kv.value short).map (reads_pure _)

theorem reads_ne {count : Nat} {values : List (BitVec 64)} (length : values.length = count) :
    Reads (σ := Step) (repeatRead (freadEl infoFailure Layout.u64) count)
      (Layout.u64.writeMany values) values := by
  have all := reads_repeatRead fun value (_ : value ∈ values) =>
    reads_freadEl (σ := Step) infoFailure Layout.u64 value
  rwa [map_id', length] at all

variable {info : TensorInfo CString} {ctx : GgufContext}

theorem reads_freadInfoFields (dims : info.nDims.toNat ≤ 4)
    (flat : ∀ i : Fin 4, info.nDims.toNat ≤ i.val → info.ne i = 1) :
    Reads freadInfoFields (bwriteInfo info) (info.map CString.bytes) := by
  have length : ((List.ofFn info.ne).take info.nDims.toNat).length = info.nDims.toNat := by
    rw [length_take]
    exact min_eq_left dims
  refine (reads_freadStr infoFailure info.name).bind ?_
  refine (reads_freadEl infoFailure Layout.u32 info.nDims).bind ?_
  rw [if_neg (not_lt.mpr dims)]
  refine (reads_ne length).bind ?_
  refine (reads_freadEl infoFailure Layout.u32 info.type).bind ?_
  refine (reads_freadEl infoFailure Layout.u64 info.offset).map ?_
  have ne : (fun i : Fin 4 => ((List.ofFn info.ne).take info.nDims.toNat).getD i 1) = info.ne := by
    funext i
    rw [getD_eq_getElem?_getD, List.getElem?_take]
    split
    · rw [List.getElem?_ofFn, dif_pos i.isLt]
      rfl
    · rename_i beyond
      exact (flat i (Nat.le_of_not_lt beyond)).symm
  rw [ne]
  exact reads_pure _

theorem reads_ggmlAssert {condition : Bool} (holds : condition = true) :
    Reads (ggmlAssert condition) [] () := by
  rw [ggmlAssert, if_pos holds]
  exact reads_pure ()

theorem reads_assertCount {count dim : BitVec 64} (less : count < int64Max / dim) :
    Reads (assertCount count dim) [] () :=
  (reads_note _).after ((reads_ggmlAssert (decide_eq_true less)).after (reads_note _))

theorem reads_assertSane {S : Type} {info : TensorInfo S} (sane : sanitize info = true) :
    Reads (assertSane info) [] () := by
  obtain ⟨plain, one, two, three⟩ := sanitize_eq_true.mp sane
  refine (reads_ggmlAssert plain).after ((reads_assertCount one).after ?_)
  exact (reads_assertCount two).after (reads_assertCount three)

theorem stops_assertSane {S : Type} {info : TensorInfo S} (refused : ¬ sanitize info = true)
    (written : Bytes) : Stops (assertSane info) written := by
  intro rest notes
  cases ended : assertSane info ⟨written ++ rest, notes⟩ with
  | mk result after =>
    cases result with
    | ok value => exact absurd (returns_assertSane ⟨_, _, ended⟩) refused
    | error message => exact ⟨message, after, rfl⟩

theorem sanitize_map {S T : Type} (f : S → T) (info : TensorInfo S) :
    sanitize (info.map f) = sanitize info := rfl

theorem reads_freadInfo (dims : info.nDims.toNat ≤ 4)
    (flat : ∀ i : Fin 4, info.nDims.toNat ≤ i.val → info.ne i = 1) (sane : sanitize info = true) :
    Reads freadInfo (bwriteInfo info) (info.map CString.bytes) := by
  refine (reads_freadInfoFields dims flat).map ?_
  exact (reads_assertSane ((sanitize_map ..).trans sane)).after (reads_pure _)

theorem stops_freadInfo (dims : info.nDims.toNat ≤ 4)
    (flat : ∀ i : Fin 4, info.nDims.toNat ≤ i.val → info.ne i = 1)
    (refused : ¬ sanitize info = true) : Stops freadInfo (bwriteInfo info) := by
  have unsane : ¬ sanitize (info.map CString.bytes) = true := refused
  have stops : Stops freadInfo (bwriteInfo info ++ []) :=
    (reads_freadInfoFields dims flat).stops ((stops_assertSane unsane []).bind _)
  rwa [append_nil] at stops

theorem cText_bytes (text : CString) : cText text.bytes = text.bytes := by
  rw [cText, takeWhile_eq_self_iff]
  intro byte member
  refine decide_eq_true fun zero => text.noNul ?_
  rw [← zero]
  exact member

theorem reads_freadInfos {before : List (TensorInfo Bytes)} {entries : List TensorEntry}
    (dims : ∀ entry ∈ entries, entry.info.nDims.toNat ≤ 4)
    (flat : ∀ entry ∈ entries, ∀ i : Fin 4, entry.info.nDims.toNat ≤ i.val → entry.info.ne i = 1)
    (distinct : entries.Pairwise fun one other => other.info.name.bytes ≠ one.info.name.bytes)
    (fresh : ∀ entry ∈ entries, ∀ other ∈ before, cText other.name ≠ entry.info.name.bytes) :
    ((∀ entry ∈ entries, sanitize entry.info = true) →
      Reads (freadInfos entries.length before) ((entries.map TensorEntry.info).flatMap bwriteInfo)
        (before ++ entries.map fun entry => entry.info.map CString.bytes)) ∧
    ((∃ entry ∈ entries, ¬ sanitize entry.info = true) →
      Stops (freadInfos entries.length before)
        ((entries.map TensorEntry.info).flatMap bwriteInfo)) := by
  induction entries generalizing before with
  | nil =>
    rw [map_nil, map_nil, append_nil]
    refine ⟨fun _ => reads_pure before, ?_⟩
    rintro ⟨entry, member, -⟩
    cases member
  | cons entry others ih =>
    have here : entry ∈ entry :: others := mem_cons_self
    have new : ¬ (before.any fun other =>
        cText (entry.info.map CString.bytes).name == cText other.name) = true := by
      intro found
      obtain ⟨other, member, same⟩ := any_eq_true.mp found
      refine fresh entry here other member ?_
      rw [← cText_bytes entry.info.name]
      exact (beq_iff_eq.mp same).symm
    have freshLater : ∀ other ∈ others, ∀ read ∈ before ++ [entry.info.map CString.bytes],
        cText read.name ≠ other.info.name.bytes := by
      intro other member read readBefore
      rcases mem_append.mp readBefore with old | last
      · exact fresh other (mem_cons_of_mem _ member) read old
      · rw [mem_singleton.mp last]
        change cText entry.info.name.bytes ≠ _
        rw [cText_bytes]
        exact ((pairwise_cons.mp distinct).1 other member).symm
    have later := ih (fun other member => dims other (mem_cons_of_mem _ member))
      (fun other member => flat other (mem_cons_of_mem _ member))
      (pairwise_cons.mp distinct).2 freshLater
    rw [append_assoc] at later
    by_cases sane : sanitize entry.info = true
    · have read := reads_freadInfo (dims entry here) (flat entry here) sane
      constructor
      · intro all
        refine read.bind ?_
        rw [if_neg new]
        exact later.1 fun other member => all other (mem_cons_of_mem _ member)
      · rintro ⟨other, member, refused⟩
        refine read.stops ?_
        rw [if_neg new]
        rcases mem_cons.mp member with first | rest
        · exact absurd sane (first ▸ refused)
        · exact later.2 ⟨other, rest, refused⟩
    · exact ⟨fun all => absurd (all entry here) sane, fun _ =>
        ((stops_freadInfo (dims entry here) (flat entry here) sane).bind _).append _⟩

theorem reads_freadMeta {types : TypeTraits} (built : Built types ctx)
    (kvs : ctx.kv.length < 2 ^ 31) (tensors : ctx.infos.length < 2 ^ 31) :
    ((∀ entry ∈ ctx.infos, sanitize entry.info = true) →
      Reads freadMeta (bwriteMeta ctx) (ctx.kv.map (Kv.map CString.bytes),
        ctx.infos.map fun entry => entry.info.map CString.bytes)) ∧
    ((∃ entry ∈ ctx.infos, ¬ sanitize entry.info = true) → Stops freadMeta (bwriteMeta ctx)) := by
  have header : headerOk (BitVec.ofNat 64 ctx.infos.length) (BitVec.ofNat 64 ctx.kv.length) = true := by
    rw [headerOk, toNat_ofNat_short kvs, toNat_ofNat_short tensors, sizeMax, infoSize, kvSize,
      tensorOverhead, Bool.and_eq_true_iff, Bool.and_eq_true_iff, decide_eq_true_iff,
      decide_eq_true_iff, decide_eq_true_iff]
    omega
  have known : ¬ ggufVersion = 1 := of_decide_eq_false rfl
  have magic := reads_fread (σ := Step) "invalid magic characters" ggufMagic
  have version := reads_freadEl (σ := Step) headerFailure Layout.u32 ggufVersion
  have nTensors := reads_freadEl (σ := Step) headerFailure Layout.u64
    (BitVec.ofNat 64 ctx.infos.length)
  have nKv := reads_freadEl (σ := Step) headerFailure Layout.u64 (BitVec.ofNat 64 ctx.kv.length)
  have pairs := reads_repeatRead fun kv member => reads_freadKv kv (built.short kv member)
  have none : ∀ entry ∈ ctx.infos, ∀ other ∈ ([] : List (TensorInfo Bytes)),
      cText other.name ≠ entry.info.name.bytes :=
    fun _ _ _ impossible => absurd impossible not_mem_nil
  have infos := reads_freadInfos (fun entry member => (built.sound entry member).dims)
    (fun entry member => (built.sound entry member).flat) built.names none
  constructor
  · intro all
    refine magic.bind ?_
    refine version.bind (nTensors.bind (nKv.bind ?_))
    rw [if_pos header, toNat_ofNat_short kvs, toNat_ofNat_short tensors]
    refine (reads_note _).after (pairs.bind ((reads_note _).after ?_))
    exact (infos.1 all).map (reads_pure _)
  · intro refused
    refine magic.stops ?_
    refine version.stops (nTensors.stops (nKv.stops ?_))
    rw [if_pos header, toNat_ofNat_short kvs, toNat_ofNat_short tensors]
    refine (reads_note _).stops (pairs.stops ((reads_note _).stops ?_))
    exact (infos.2 refused).bind _

def alignmentOf (ctx : GgufContext) : Nat :=
  match ctx.kv.find? fun kv => kv.key.bytes == alignmentKey with
  | some ⟨_, .scalar .uint32 val⟩ => val.toNat
  | _ => defaultAlignment

/-- The key, if it is set, is a positive `u32` and a power of two. -/
def AlignmentSet (ctx : GgufContext) : Prop :=
  ∀ kv ∈ ctx.kv, kv.key.bytes = alignmentKey →
    ∃ (val : BitVec 32) (k : Nat), val.toNat = 2 ^ k ∧ kv.value = .scalar .uint32 val

theorem keyAlignment_written (alignment : AlignmentSet ctx) :
    keyAlignment (ctx.kv.map (Kv.map CString.bytes)) = some (alignmentOf ctx) := by
  have same : (fun kv : Kv Bytes => cText kv.key == alignmentKey) ∘ Kv.map CString.bytes =
      fun kv => kv.key.bytes == alignmentKey := by
    funext kv
    change (cText kv.key.bytes == alignmentKey) = _
    rw [cText_bytes]
  rw [keyAlignment, alignmentOf, List.find?_map, same]
  cases found : ctx.kv.find? fun kv => kv.key.bytes == alignmentKey with
  | none => rfl
  | some kv =>
    obtain ⟨val, k, -, value⟩ := alignment kv (mem_of_find?_eq_some found)
      (beq_iff_eq.mp
        (List.find?_some (p := fun kv : Kv CString => kv.key.bytes == alignmentKey) found))
    obtain ⟨key, set⟩ := kv
    change set = _ at value
    rw [value]
    rfl

theorem reads_fileAlignment (alignment : AlignmentSet ctx) :
    Reads (fileAlignment (ctx.kv.map (Kv.map CString.bytes))) [] (alignmentOf ctx) := by
  rw [fileAlignment, keyAlignment_written alignment]
  exact reads_pure _

theorem alignmentOf_pos (alignment : AlignmentSet ctx) : 0 < alignmentOf ctx := by
  rw [alignmentOf]
  split
  · rename_i key val found
    have here := List.find?_some found
    obtain ⟨other, k, power, value⟩ := alignment _ (mem_of_find?_eq_some found)
      (beq_iff_eq.mp here)
    cases value
    exact lt_of_lt_of_eq (Nat.two_pow_pos k) power.symm
  · decide

def paddedSize {S : Type} (types : TypeTraits) (alignment : Nat) (infos : List (TensorInfo S)) :
    BitVec 64 :=
  infos.foldl
    (fun size info =>
      size + ggmlPad64 (rowSize types info.type (nelements info)) (BitVec.ofNat 64 alignment))
    0

theorem toInt_of_lt {x : BitVec 64} (small : x.toNat < 2 ^ 63) : x.toInt = x.toNat :=
  BitVec.toInt_eq_toNat_of_lt (by omega)

theorem tmod_nelements {types : TypeTraits} {entry : TensorEntry} (sound : entry.Sound types)
    (allowed : sanitize entry.info = true) :
    (nelements entry.info).toInt.tmod (types.blckSize entry.info.type).toInt = 0 := by
  obtain ⟨product, small⟩ := toNat_nelements allowed
  have blocks := sound.blocks
  have positive : (types.blckSize entry.info.type).toInt = (types.blckSize entry.info.type).toNat := by
    rw [BitVec.toInt_eq_toNat_cond] at blocks ⊢
    split at blocks
    · rename_i low
      rw [if_pos low]
    · omega
  rw [toInt_of_lt small, positive, product]
  refine Int.tmod_eq_zero_of_dvd (Int.natCast_dvd_natCast.mpr ?_)
  exact (((sound.whole.mul_right _).mul_right _).mul_right _)

theorem reads_noteRowSize (types : TypeTraits) (type : BitVec 32) (ne : BitVec 64) :
    Reads (noteRowSize types type ne) [] (rowSize types type ne) :=
  (reads_note _).after ((reads_note _).after ((reads_note _).after (reads_pure _)))

theorem reads_addSize {types : TypeTraits} {alignment : Nat} {entry : TensorEntry}
    (sound : entry.Sound types) (allowed : sanitize entry.info = true) (size : BitVec 64) :
    Reads (addSize types alignment size (entry.info.map CString.bytes)) []
      (size + ggmlPad64 (rowSize types entry.info.type (nelements entry.info))
        (BitVec.ofNat 64 alignment)) := by
  have some_ : ¬ types.blckSize (entry.info.map CString.bytes).type = 0 := by
    intro zero
    have blocks := sound.blocks
    change types.blckSize entry.info.type = 0 at zero
    rw [zero] at blocks
    exact absurd blocks (Int.lt_irrefl 0)
  have whole : ¬ (nelements (entry.info.map CString.bytes)).toInt.tmod
      (types.blckSize (entry.info.map CString.bytes).type).toInt ≠ 0 :=
    not_not.mpr (tmod_nelements sound allowed)
  refine (reads_note _).after ?_
  rw [if_neg some_, if_neg whole]
  refine (reads_noteRowSize types _ _).after ?_
  exact (reads_note _).after ((reads_note _).after (reads_pure _))

theorem reads_dataSize {types : TypeTraits} {alignment : Nat} {entries : List TensorEntry}
    (sound : ∀ entry ∈ entries, entry.Sound types)
    (allowed : ∀ entry ∈ entries, sanitize entry.info = true) :
    Reads (dataSize types alignment (entries.map fun entry => entry.info.map CString.bytes)) []
      (paddedSize types alignment (entries.map TensorEntry.info)) := by
  rw [dataSize, paddedSize]
  generalize (0 : BitVec 64) = size
  induction entries generalizing size with
  | nil => exact reads_pure size
  | cons entry rest ih =>
    have here : entry ∈ entry :: rest := mem_cons_self
    refine (reads_addSize (sound entry here) (allowed entry here) size).after ?_
    exact ih (fun other member => sound other (mem_cons_of_mem _ member))
      (fun other member => allowed other (mem_cons_of_mem _ member)) _

theorem reads_noteProduct (ne : Fin 4 → BitVec 64) (size : BitVec 64) (dims : List (Fin 4)) :
    Reads (noteProduct ne size dims) [] (dims.foldl (fun size i => size * ne i) size) := by
  induction dims generalizing size with
  | nil => exact reads_pure size
  | cons i rest ih =>
    have step : Reads (do note (Step.size (size.toNat * (ne i).toNat)); return size * ne i) []
        (size * ne i) := (reads_note _).after (reads_pure _)
    exact step.after (ih _)

theorem reads_newTensor {S : Type} (types : TypeTraits) (info : TensorInfo S) :
    Reads (newTensor types info) [] () := by
  refine (reads_noteRowSize types _ _).after ((reads_noteProduct _ _ _).after ?_)
  exact (reads_noteProduct _ _ _).after (reads_pure ())

theorem reads_newTensors {S : Type} (types : TypeTraits) (infos : List (TensorInfo S)) :
    Reads (infos.forM (newTensor types)) [] () := by
  induction infos with
  | nil => exact reads_pure ()
  | cons info rest ih => exact (reads_newTensor types info).after ih

section

variable {S : Type} {types : TypeTraits} {params : InitParams} {infos : List (TensorInfo S)}
  {size : BitVec 64} {available : Nat}

theorem reads_createTensors (enough : ¬ TooShort params size.toNat available) :
    Reads (createTensors types params infos size available) [] () := by
  rw [createTensors]
  by_cases tensors : params.ctx = true
  · rw [if_pos tensors]
    refine (reads_note _).after ((reads_note _).after ?_)
    rw [if_neg fun short => enough ⟨tensors, short⟩]
    exact reads_newTensors types infos
  · rw [if_neg tensors]
    exact reads_pure ()

theorem stops_createTensors (short : TooShort params size.toNat available) :
    Stops (createTensors types params infos size available) [] := by
  rw [createTensors, if_pos short.1]
  refine (reads_note _).stops_after ((reads_note _).stops_after ?_)
  rw [if_pos short.2]
  exact stops_throw _ []

end

end LlamaCpp.Gguf
