import LlamaCpp.Gguf.ReadBack

/-!
# Round trip

The writer pads to the alignment of the context, which is 32 whatever is set; the reader goes by the
key `general.alignment`.  Where both come to the same place, what is read is what was written.
-/

set_option autoImplicit false

namespace LlamaCpp.Gguf

open LlamaCpp.Lib List
open LlamaCpp.Ggml

section

variable {types : TypeTraits}

def metaSize (ctx : GgufContext) : Nat := (bwriteMeta ctx).length

def fileSize (ctx : GgufContext) : Nat :=
  alignOffset defaultAlignment (metaSize ctx) +
    (ctx.infos.map fun entry => alignOffset defaultAlignment entry.data.length).sum

theorem length_dataSection (entries : List TensorEntry) : (dataSection entries).length =
    (entries.map fun entry => alignOffset defaultAlignment entry.data.length).sum := by
  rw [dataSection, length_flatMap]
  congr 2
  funext entry
  exact length_bwritePadded entry.data

/-- What the code counts in an `int` and the file's size are in range. -/
structure Fits (ctx : GgufContext) : Prop where
  kvs : ctx.kv.length < 2 ^ 31
  tensors : ctx.infos.length < 2 ^ 31
  file : fileSize ctx < 2 ^ 63

theorem writeToFile_built {ctx : GgufContext} (built : Built types ctx) :
    writeToFile ctx false =
      .ok (bwritePadded defaultAlignment (bwriteMeta ctx) ++ dataSection ctx.infos) := by
  rw [writeToFile, writeToBuf, built.alignment, built.placed.bwriteData]
  rfl

def dataStart (ctx : GgufContext) : Nat := alignOffset (alignmentOf ctx) (metaSize ctx)

def readBack (types : TypeTraits) (ctx : GgufContext) : GgufFile where
  kv := ctx.kv.map (Kv.map CString.bytes)
  infos := ctx.infos.map fun entry => entry.info.map CString.bytes
  alignment := alignmentOf ctx
  offset := dataStart ctx
  size := paddedSize types (alignmentOf ctx) (ctx.infos.map TensorEntry.info)

def AsksTooMuch (types : TypeTraits) (params : InitParams) (ctx : GgufContext) (length : Nat) : Prop :=
  TooShort params (paddedSize types (alignmentOf ctx) (ctx.infos.map TensorEntry.info)).toNat
    (length - dataStart ctx)

section

variable {ctx : GgufContext} {params : InitParams} {length : Nat}

theorem reads_readData (built : Built types ctx)
    (sane : ∀ entry ∈ ctx.infos, sanitize entry.info = true)
    (enough : ¬ AsksTooMuch types params ctx length) :
    Reads (readData types params length (ctx.kv.map (Kv.map CString.bytes))
      (ctx.infos.map fun entry => entry.info.map CString.bytes) (alignmentOf ctx) (dataStart ctx)) []
      (readBack types ctx) := by
  refine (reads_note _).after ((reads_dataSize built.sound sane).after ?_)
  exact (reads_createTensors enough).after (reads_pure _)

theorem stops_readData (built : Built types ctx)
    (sane : ∀ entry ∈ ctx.infos, sanitize entry.info = true)
    (short : AsksTooMuch types params ctx length) :
    Stops (readData types params length (ctx.kv.map (Kv.map CString.bytes))
      (ctx.infos.map fun entry => entry.info.map CString.bytes) (alignmentOf ctx) (dataStart ctx))
      [] := by
  refine (reads_note _).stops_after ((reads_dataSize built.sound sane).stops_after ?_)
  exact (stops_createTensors short).bind _

end

theorem initFromFile_written {ctx : GgufContext} (built : Built types ctx)
    (alignment : AlignmentSet ctx) (fits : Fits ctx) (params : InitParams)
    (sane : ∀ entry ∈ ctx.infos, sanitize entry.info = true) (rest : Bytes) :
    (AsksTooMuch types params ctx (bwriteMeta ctx ++ rest).length →
      ∃ message, initFromFile types params (bwriteMeta ctx ++ rest) = .error message) ∧
    (¬ AsksTooMuch types params ctx (bwriteMeta ctx ++ rest).length →
      initFromFile types params (bwriteMeta ctx ++ rest) = .ok (readBack types ctx)) := by
  have before : (bwriteMeta ctx ++ rest).length - rest.length = metaSize ctx := by
    rw [length_append]
    exact Nat.add_sub_cancel ..
  have positive : alignmentOf ctx ≠ 0 := Nat.ne_of_gt (alignmentOf_pos alignment)
  obtain ⟨_, readMeta⟩ := (reads_freadMeta built fits.kvs fits.tensors).1 sane rest []
  obtain ⟨_, readKey⟩ := reads_fileAlignment alignment rest _
  rw [nil_append] at readKey
  rw [initFromFile, readFile, bind_ok readMeta]
  dsimp only
  rw [finishFile, bind_ok readKey, bind_note, if_neg positive, bind_remaining, before]
  constructor
  · intro short
    obtain ⟨message, _, stopped⟩ := stops_readData built sane short rest _
    exact ⟨message, congrArg Prod.fst stopped⟩
  · intro enough
    obtain ⟨_, returned⟩ := reads_readData built sane enough rest _
    exact congrArg Prod.fst returned

theorem initFromFile_refused {ctx : GgufContext} (built : Built types ctx) (fits : Fits ctx)
    (params : InitParams) (refused : ∃ entry ∈ ctx.infos, ¬ sanitize entry.info = true)
    (rest : Bytes) : ∃ message, initFromFile types params (bwriteMeta ctx ++ rest) = .error message := by
  obtain ⟨message, _, stopped⟩ :=
    (((reads_freadMeta built fits.kvs fits.tensors).2 refused).bind fun read =>
      finishFile types params (bwriteMeta ctx ++ rest).length read.1 read.2) rest []
  exact ⟨message, congrArg Prod.fst stopped⟩

def RoundTrips (types : TypeTraits) (params : InitParams) (ctx : GgufContext) : Prop :=
  ∃ bytes file, writeToFile ctx false = .ok bytes ∧ initFromFile types params bytes = .ok file ∧
    file.kv = ctx.kv.map (Kv.map CString.bytes) ∧
    file.infos = (ctx.infos.map fun entry => entry.info.map CString.bytes) ∧
    ∀ entry ∈ ctx.infos,
      (bytes.drop (file.offset + entry.info.offset.toNat)).take entry.data.length = entry.data

/-- The assertions let every tensor through, the data starts where the reader looks for it, and
there is as much of it as the reader loads. -/
structure Readable (types : TypeTraits) (params : InitParams) (ctx : GgufContext) : Prop where
  elements : ∀ entry ∈ ctx.infos, sanitize entry.info = true
  start : (∃ entry ∈ ctx.infos, entry.data ≠ []) →
    alignOffset (alignmentOf ctx) (metaSize ctx) = alignOffset defaultAlignment (metaSize ctx)
  enough : ¬ AsksTooMuch types params ctx (fileSize ctx)

theorem length_written {ctx : GgufContext} :
    (bwritePadded defaultAlignment (bwriteMeta ctx) ++ dataSection ctx.infos).length =
      fileSize ctx := by
  rw [length_append, length_bwritePadded, length_dataSection]
  rfl

variable {entry : TensorEntry}

theorem toNat_offset {ctx : GgufContext} (built : Built types ctx) (fits : Fits ctx)
    {before after : List TensorEntry} (split : ctx.infos = before ++ entry :: after) :
    entry.info.offset.toNat = (dataSection before).length := by
  have placed := built.placed
  rw [split] at placed
  have offset : entry.info.offset = BitVec.ofNat 64 (0 + (dataSection before).length) :=
    Placed.offset placed
  have bound : (dataSection before).length < 2 ^ 64 := by
    have all := fits.file
    rw [fileSize, ← length_dataSection, split, dataSection_append, length_append] at all
    omega
  rw [offset, zero_add, BitVec.toNat_ofNat, Nat.mod_eq_of_lt bound]

theorem data_at_offset {ctx : GgufContext} (built : Built types ctx) (fits : Fits ctx)
    (member : entry ∈ ctx.infos) :
    ((bwritePadded defaultAlignment (bwriteMeta ctx) ++ dataSection ctx.infos).drop
      (alignOffset defaultAlignment (metaSize ctx) + entry.info.offset.toNat)).take
        entry.data.length = entry.data := by
  obtain ⟨before, after, split⟩ := append_of_mem member
  have start : alignOffset defaultAlignment (metaSize ctx) =
      (bwritePadded defaultAlignment (bwriteMeta ctx)).length := (length_bwritePadded _).symm
  rw [toNat_offset built fits split, start, drop_length_add_append, split, dataSection_append,
    drop_left, dataSection_cons, bwritePadded, append_assoc, take_left]

theorem initFromFile_writeToFile {ctx : GgufContext} (built : Built types ctx)
    (alignment : AlignmentSet ctx) (fits : Fits ctx) (params : InitParams) {file : GgufFile} :
    initFromFile types params
        (bwritePadded defaultAlignment (bwriteMeta ctx) ++ dataSection ctx.infos) = .ok file ↔
      (∀ entry ∈ ctx.infos, sanitize entry.info = true) ∧
        ¬ AsksTooMuch types params ctx (fileSize ctx) ∧ file = readBack types ctx := by
  have size : (bwritePadded defaultAlignment (bwriteMeta ctx) ++ dataSection ctx.infos).length = _ :=
    length_written
  rw [bwritePadded, append_assoc] at size ⊢
  constructor
  · intro returned
    have sane : ∀ entry ∈ ctx.infos, sanitize entry.info = true := by
      by_contra some_
      push Not at some_
      obtain ⟨message, failed⟩ := initFromFile_refused built fits params some_ _
      rw [failed] at returned
      cases returned
    have read := initFromFile_written built alignment fits params sane
      (List.replicate (ggmlPad (bwriteMeta ctx).length defaultAlignment - (bwriteMeta ctx).length) 0
        ++ dataSection ctx.infos)
    rw [size] at read
    by_cases short : AsksTooMuch types params ctx (fileSize ctx)
    · obtain ⟨message, failed⟩ := read.1 short
      rw [failed] at returned
      cases returned
    · rw [read.2 short] at returned
      cases returned
      exact ⟨sane, short, rfl⟩
  · rintro ⟨sane, enough, rfl⟩
    refine (initFromFile_written built alignment fits params sane _).2 ?_
    rw [size]
    exact enough

theorem Readable.roundTrips {params : InitParams} {ctx : GgufContext} (built : Built types ctx)
    (alignment : AlignmentSet ctx) (fits : Fits ctx) (readable : Readable types params ctx) :
    RoundTrips types params ctx := by
  refine ⟨_, _, writeToFile_built built, (initFromFile_writeToFile built alignment fits params).mpr
    ⟨readable.elements, readable.enough, rfl⟩, rfl, rfl, fun entry member => ?_⟩
  by_cases none : entry.data = []
  · rw [none]
    rfl
  · have same := readable.start ⟨entry, member, none⟩
    change (List.drop (dataStart ctx + _) _).take _ = _
    rw [dataStart, same]
    exact data_at_offset built fits member

theorem RoundTrips.inversion {params : InitParams} {ctx : GgufContext} (built : Built types ctx)
    (alignment : AlignmentSet ctx) (fits : Fits ctx) (found : RoundTrips types params ctx) :
    (∀ entry ∈ ctx.infos, sanitize entry.info = true) ∧
      ¬ AsksTooMuch types params ctx (fileSize ctx) ∧
      ∀ entry ∈ ctx.infos,
        ((bwritePadded defaultAlignment (bwriteMeta ctx) ++ dataSection ctx.infos).drop
          (dataStart ctx + entry.info.offset.toNat)).take entry.data.length = entry.data := by
  obtain ⟨bytes, file, written, read, -, -, data⟩ := found
  rw [writeToFile_built built] at written
  cases written
  obtain ⟨sane, enough, rfl⟩ := (initFromFile_writeToFile built alignment fits params).mp read
  exact ⟨sane, enough, data⟩

def TensorEntry.shape (entry : TensorEntry) : TensorInfo CString × Nat :=
  (entry.info, entry.data.length)

structure SameShape (other ctx : GgufContext) : Prop where
  kv : other.kv = ctx.kv
  infos : other.infos.map TensorEntry.shape = ctx.infos.map TensorEntry.shape

namespace SameShape

variable {other ctx : GgufContext}

section

variable (same : SameShape other ctx)
include same

theorem map_info :
    other.infos.map TensorEntry.info = ctx.infos.map TensorEntry.info := by
  have first := congrArg (List.map Prod.fst) same.infos
  rwa [map_map, map_map] at first

theorem length : other.infos.length = ctx.infos.length := by
  have lengths := congrArg List.length same.infos
  rwa [length_map, length_map] at lengths

theorem alignmentOf_eq : alignmentOf other = alignmentOf ctx := by
  rw [alignmentOf, alignmentOf, same.kv]

theorem metaSize_eq : metaSize other = metaSize ctx := by
  rw [metaSize, metaSize, bwriteMeta, bwriteMeta, same.kv, same.length, same.map_info]

theorem fileSize_eq : fileSize other = fileSize ctx := by
  have sizes := congrArg
    (List.map fun shape : TensorInfo CString × Nat => alignOffset defaultAlignment shape.2) same.infos
  rw [map_map, map_map] at sizes
  rw [fileSize, same.metaSize_eq]
  exact congrArg (fun padded : List Nat => _ + padded.sum) sizes

theorem exists_mem {entry : TensorEntry} (member : entry ∈ other.infos) :
    ∃ twin ∈ ctx.infos, twin.info = entry.info ∧ twin.data.length = entry.data.length := by
  have shape : entry.shape ∈ ctx.infos.map TensorEntry.shape := by
    rw [← same.infos]
    exact mem_map_of_mem member
  obtain ⟨twin, here, equal⟩ := mem_map.mp shape
  exact ⟨twin, here, congrArg Prod.fst equal, congrArg Prod.snd equal⟩

theorem alignmentSet (alignment : AlignmentSet ctx) :
    AlignmentSet other := by
  rw [AlignmentSet, same.kv]
  exact alignment

theorem fits (fits : Fits ctx) : Fits other where
  kvs := by
    rw [same.kv]
    exact fits.kvs
  tensors := by
    rw [same.length]
    exact fits.tensors
  file := by
    rw [same.fileSize_eq]
    exact fits.file

theorem readable {params : InitParams}
    (readable : Readable types params ctx) : Readable types params other where
  elements entry member := by
    obtain ⟨twin, here, info, -⟩ := same.exists_mem member
    rw [← info]
    exact readable.elements twin here
  start := by
    rintro ⟨entry, member, some_⟩
    obtain ⟨twin, here, -, length⟩ := same.exists_mem member
    rw [same.alignmentOf_eq, same.metaSize_eq]
    refine readable.start ⟨twin, here, fun none => some_ ?_⟩
    rw [none] at length
    exact length_eq_zero_iff.mp length.symm
  enough := by
    rw [AsksTooMuch, dataStart, same.alignmentOf_eq, same.metaSize_eq, same.fileSize_eq,
      same.map_info]
    exact readable.enough

end

end SameShape

structure Filling where
  fill : Bytes → Nat → Bytes
  length_fill : ∀ name size, (fill name size).length = size

section

variable (filling : Filling)

def TensorEntry.refill (entry : TensorEntry) : TensorEntry :=
  { entry with data := filling.fill entry.info.name.bytes entry.data.length }

def GgufContext.refill (ctx : GgufContext) : GgufContext :=
  { ctx with infos := ctx.infos.map (TensorEntry.refill filling) }

def GgmlTensor.refill (tensor : GgmlTensor types) : GgmlTensor types :=
  { tensor with
    data := filling.fill tensor.name.bytes tensor.data.length
    size := (filling.length_fill ..).trans tensor.size }

def Call.refill : Call types → Call types
  | .addTensor tensor => .addTensor (tensor.refill filling)
  | call => call

variable {filling}

theorem TensorEntry.shape_refill (entry : TensorEntry) :
    (entry.refill filling).shape = entry.shape :=
  congrArg (Prod.mk entry.info) (filling.length_fill ..)

theorem sameShape_refill (ctx : GgufContext) : SameShape (ctx.refill filling) ctx where
  kv := rfl
  infos := by
    rw [GgufContext.refill, map_map]
    exact map_congr_left fun entry _ => entry.shape_refill

theorem setValue_refill (ctx : GgufContext) (key : CString) (value : GgufValue CString) :
    setValue (ctx.refill filling) key value = (setValue ctx key value).refill filling := by
  have same : findKey (ctx.refill filling) key = findKey ctx key := rfl
  rw [setValue, setValue, same]
  split
  · rfl
  · rfl

theorem setKv_refill (ctx : GgufContext) (src : List (Kv CString)) :
    setKv (ctx.refill filling) src = (setKv ctx src).refill filling := by
  rw [setKv, setKv]
  induction src generalizing ctx with
  | nil => rfl
  | cons kv rest ih =>
    rw [foldl_cons, foldl_cons, setKvValue_eq, setKvValue_eq, setValue_refill]
    exact ih _

theorem removeKey_refill (ctx : GgufContext) (key : CString) :
    removeKey (ctx.refill filling) key = (removeKey ctx key).refill filling := by
  have same : findKey (ctx.refill filling) key = findKey ctx key := rfl
  rw [removeKey, removeKey, same]
  split
  · rfl
  · rfl

theorem addTensor_refill {ctx next : GgufContext} {tensor : GgmlTensor types}
    (added : addTensor ctx tensor = .ok next) :
    addTensor (ctx.refill filling) (tensor.refill filling) = .ok (next.refill filling) := by
  have names : ((ctx.refill filling).infos.any fun entry =>
      entry.info.name.bytes == (tensor.refill filling).name.bytes) =
      ctx.infos.any fun entry => entry.info.name.bytes == tensor.name.bytes := by
    rw [GgufContext.refill, any_map]
    rfl
  rw [addTensor] at added ⊢
  rw [names]
  split at added
  · cases added
  · rename_i fresh
    rw [if_neg fresh]
    cases added
    rw [GgufContext.refill, GgufContext.refill, List.getLast?_map]
    cases last : ctx.infos.getLast? with
    | none =>
      rw [map_append]
      rfl
    | some entry =>
      have length : (entry.refill filling).data.length = entry.data.length :=
        filling.length_fill ..
      rw [Option.map_some, map_append]
      dsimp only
      rw [length]
      rfl

theorem apply_refill {ctx next : GgufContext} {call : Call types}
    (applied : call.apply ctx = .ok next) :
    (call.refill filling).apply (ctx.refill filling) = .ok (next.refill filling) := by
  cases call with
  | setVal key type val =>
    cases applied
    rw [setKvValue_eq, ← setValue_refill, ← setKvValue_eq]
    rfl
  | setValStr key val =>
    cases applied
    exact congrArg Except.ok (setValue_refill ctx key _)
  | setArrData key type data short =>
    cases applied
    exact congrArg Except.ok (setValue_refill ctx key _)
  | setArrStr key data short =>
    cases applied
    exact congrArg Except.ok (setValue_refill ctx key _)
  | setKv src short =>
    cases applied
    exact congrArg Except.ok (setKv_refill ctx src)
  | removeKey key =>
    cases applied
    exact congrArg Except.ok (removeKey_refill ctx key)
  | addTensor tensor => exact addTensor_refill applied

theorem foldlM_refill {calls : List (Call types)} {start ctx : GgufContext}
    (runs : calls.foldlM (fun ctx call => call.apply ctx) start = .ok ctx) :
    (calls.map (Call.refill filling)).foldlM (fun ctx call => call.apply ctx)
      (start.refill filling) = .ok (ctx.refill filling) := by
  induction calls generalizing start with
  | nil =>
    cases runs
    rfl
  | cons call rest ih =>
    obtain ⟨next, applied, later⟩ := bind_eq_ok.mp runs
    rw [map_cons, foldlM_cons, apply_refill applied]
    exact ih later

theorem build_refill {calls : List (Call types)} {ctx : GgufContext} (built : build calls = .ok ctx) :
    build (calls.map (Call.refill filling)) = .ok (ctx.refill filling) := foldlM_refill built

end

def firstByte (name : Bytes) : Filling where
  fill other size :=
    if other = name then List.ofFn fun i : Fin size => if i.val = 0 then 1 else 0
    else List.replicate size 0
  length_fill other size := by
    split
    · exact length_ofFn
    · exact length_replicate

theorem refill_zero {name : Bytes} (other : entry.info.name.bytes ≠ name) :
    ∀ byte ∈ (entry.refill (firstByte name)).data, byte = 0 := by
  intro byte member
  change byte ∈ (if entry.info.name.bytes = name then _ else _) at member
  rw [if_neg other] at member
  exact (mem_replicate.mp member).2

theorem refill_marked (some_ : entry.data ≠ []) : ∃ zeros : Bytes, (∀ byte ∈ zeros, byte = 0) ∧
      (entry.refill (firstByte entry.info.name.bytes)).data = 1 :: zeros := by
  have size : ∃ n, entry.data.length = n + 1 :=
    Nat.exists_eq_succ_of_ne_zero fun zero => some_ (length_eq_zero_iff.mp zero)
  obtain ⟨n, size⟩ := size
  refine ⟨List.ofFn fun _ : Fin n => 0, fun byte member => ?_, ?_⟩
  · obtain ⟨i, zero⟩ := mem_ofFn.mp member
    exact zero.symm
  · change (if entry.info.name.bytes = entry.info.name.bytes then _ else _) = _
    rw [if_pos rfl, size, ofFn_succ]
    rfl

theorem bwritePadded_zero {alignment : Nat} {bytes : Bytes} (zeros : ∀ byte ∈ bytes, byte = 0) :
    ∀ byte ∈ bwritePadded alignment bytes, byte = 0 := by
  intro byte member
  rcases mem_append.mp member with data | padding
  · exact zeros byte data
  · exact (mem_replicate.mp padding).2

theorem dataSection_zero {entries : List TensorEntry}
    (zeros : ∀ entry ∈ entries, ∀ byte ∈ entry.data, byte = 0) :
    ∀ byte ∈ dataSection entries, byte = 0 := by
  intro byte member
  obtain ⟨entry, here, inside⟩ := mem_flatMap.mp member
  exact bwritePadded_zero (zeros entry here) byte inside

theorem place_of_one {zeros rest : Bytes} (before : ∀ byte ∈ zeros, byte = 0)
    (after : ∀ byte ∈ rest, byte = 0) {i : Nat} (one : (zeros ++ 1 :: rest)[i]? = some 1) :
    i = zeros.length := by
  by_contra elsewhere
  rcases Nat.lt_or_gt_of_ne elsewhere with left | right
  · rw [List.getElem?_append_left left] at one
    exact absurd (before 1 (mem_of_getElem? one)) (by decide)
  · rw [List.getElem?_append_right (le_of_lt right)] at one
    obtain ⟨k, back⟩ := Nat.exists_eq_succ_of_ne_zero (Nat.sub_ne_zero_of_lt right)
    rw [back] at one
    exact absurd (after 1 (mem_of_getElem? one)) (by decide)

theorem refill_split {ctx : GgufContext} (built : Built types ctx) (some_ : entry.data ≠ [])
    {before after : List TensorEntry} (split : ctx.infos = before ++ entry :: after) :
    ∃ front back marked, (ctx.refill (firstByte entry.info.name.bytes)).infos =
        front ++ marked :: back ∧ marked = entry.refill (firstByte entry.info.name.bytes) ∧
      (∀ byte ∈ dataSection front, byte = 0) ∧
      ∃ zeros : Bytes, (∀ byte ∈ zeros, byte = 0) ∧
        dataSection (marked :: back) = 1 :: zeros := by
  obtain ⟨zeros, allZero, data⟩ := refill_marked some_
  -- the names of the other tensors are different
  have names := built.names
  rw [split] at names
  obtain ⟨-, later, across⟩ := pairwise_append.mp names
  refine ⟨before.map (TensorEntry.refill (firstByte entry.info.name.bytes)),
    after.map (TensorEntry.refill (firstByte entry.info.name.bytes)), _, ?_, rfl, ?_, ?_⟩
  · rw [GgufContext.refill, split, map_append, map_cons]
  · refine dataSection_zero fun other mapped => ?_
    obtain ⟨source, here, rfl⟩ := mem_map.mp mapped
    exact refill_zero (across source here entry mem_cons_self).symm
  · rw [dataSection_cons, bwritePadded, data, cons_append]
    refine ⟨_, fun byte member => ?_, rfl⟩
    rcases mem_append.mp member with inside | behind
    · rcases mem_append.mp inside with rest | padding
      · exact allZero byte rest
      · exact (mem_replicate.mp padding).2
    · refine dataSection_zero (fun other mapped => ?_) byte behind
      obtain ⟨source, here, rfl⟩ := mem_map.mp mapped
      exact refill_zero ((pairwise_cons.mp later).1 source here)

theorem start_of_roundTrips {ctx : GgufContext} (built : Built types ctx)
    (alignment : AlignmentSet ctx) (fits : Fits ctx) {params : InitParams}
    (member : entry ∈ ctx.infos) (some_ : entry.data ≠ [])
    (builtOther : Built types (ctx.refill (firstByte entry.info.name.bytes)))
    (found : RoundTrips types params (ctx.refill (firstByte entry.info.name.bytes))) :
    alignOffset (alignmentOf ctx) (metaSize ctx) = alignOffset defaultAlignment (metaSize ctx) := by
  obtain ⟨before, after, split⟩ := append_of_mem member
  obtain ⟨front, back, marked, infos, isEntry, zerosBefore, zeros, zerosAfter, data⟩ :=
    refill_split built some_ split
  have same : SameShape (ctx.refill (firstByte entry.info.name.bytes)) ctx := sameShape_refill ctx
  have inside : marked ∈ (ctx.refill (firstByte entry.info.name.bytes)).infos := by
    rw [infos]
    exact mem_append_right _ mem_cons_self
  obtain ⟨-, -, everywhere⟩ :=
    found.inversion builtOther (same.alignmentSet alignment) (same.fits fits)
  have here := everywhere marked inside
  have offset := toNat_offset builtOther (same.fits fits) infos
  obtain ⟨tail, first⟩ : ∃ tail, marked.data = 1 :: tail := by
    obtain ⟨tail, -, first⟩ := refill_marked some_
    exact ⟨tail, isEntry ▸ first⟩
  -- the byte that is read
  have read : (List.take _ _)[0]? = marked.data[0]? := congrArg (fun bytes : Bytes => bytes[0]?) here
  rw [List.getElem?_take, List.getElem?_drop,
    first, infos, dataSection_append, data,
    bwritePadded, append_assoc, ← append_assoc (List.replicate _ 0)] at read
  have beyond := le_alignOffset (alignmentOf ctx) (metaSize ctx)
  have padded := le_alignOffset defaultAlignment (metaSize ctx)
  have start : dataStart (ctx.refill (firstByte entry.info.name.bytes)) =
      alignOffset (alignmentOf ctx) (metaSize ctx) := by
    rw [dataStart, same.alignmentOf_eq, same.metaSize_eq]
  have size : (bwriteMeta (ctx.refill (firstByte entry.info.name.bytes))).length = metaSize ctx :=
    same.metaSize_eq
  rw [List.getElem?_append_right (by omega), size] at read
  have place := place_of_one
    (fun byte zero => (mem_append.mp zero).elim
      (fun padding => (mem_replicate.mp padding).2) (zerosBefore byte))
    zerosAfter read
  rw [length_append, length_replicate, ggmlPad_defaultAlignment] at place
  omega

/-- A context is read back, whatever bytes its tensors hold, exactly where the key for the alignment
leads to the place where the data was written, the assertions allow every tensor, and the file is as
long as the reader assumes. -/
theorem roundTrips_iff (calls : List (Call types)) (params : InitParams) (ctx : GgufContext)
    (built : build calls = .ok ctx) (alignment : AlignmentSet ctx) (fits : Fits ctx) :
    (∀ (others : List (Call types)) (other : GgufContext), build others = .ok other →
        SameShape other ctx → RoundTrips types params other) ↔
      Readable types params ctx := by
  have invariant := built_build calls ctx built
  constructor
  · intro always
    obtain ⟨elements, enough, -⟩ :=
      (always calls ctx built ⟨rfl, rfl⟩).inversion invariant alignment fits
    refine ⟨elements, ?_, enough⟩
    rintro ⟨entry, member, some_⟩
    have again : build (calls.map (Call.refill (firstByte entry.info.name.bytes))) = _ :=
      build_refill built
    exact start_of_roundTrips invariant alignment fits member some_
      (built_build _ _ again) (always _ _ again (sameShape_refill ctx))
  · intro readable others other builtOther same
    exact (same.readable readable).roundTrips (built_build others other builtOther)
      (same.alignmentSet alignment) (same.fits fits)

end

def floatTypes : TypeTraits where
  blckSize _ := 1
  typeSize _ := 4
  rowMetaSize _ := 0

def alignmentName : CString where
  bytes := alignmentKey
  noNul := by decide
  short := by decide

def oneFloat : GgmlTensor floatTypes where
  name := { bytes := [0x74], noNul := by decide, short := by decide }
  type := 0
  ne _ := 1
  nb _ := 4
  data := [0, 0, 0x80, 0x3f]
  known := by decide
  blocks := by decide
  whole := by decide
  size := by decide

/-- `gguf_set_val_u32` for the alignment, and `gguf_add_tensor`. -/
def alignedCalls (alignment : BitVec 32) : List (Call floatTypes) :=
  [.setVal alignmentName .uint32 alignment, .addTensor oneFloat]

def alignedContext (alignment : BitVec 32) : GgufContext where
  kv := [⟨alignmentName, .scalar .uint32 alignment⟩]
  infos := [{ info := { name := oneFloat.name, nDims := 1, ne := fun _ => 1, type := 0, offset := 0 }
              data := oneFloat.data }]
  alignment := 32

theorem build_alignedCalls (alignment : BitVec 32) :
    build (alignedCalls alignment) = .ok (alignedContext alignment) := by
  have ne : (fun i : Fin 4 => if i.val < (nDims oneFloat.ne).toNat then oneFloat.ne i else 1) =
      fun _ => 1 := by
    funext i
    exact ite_self _
  rw [alignedContext, ← ne]
  rfl

theorem alignmentSet_alignedContext {alignment : BitVec 32} {k : Nat}
    (power : alignment.toNat = 2 ^ k) : AlignmentSet (alignedContext alignment) := by
  intro kv member _
  rw [mem_singleton.mp member]
  exact ⟨alignment, k, power, rfl⟩

theorem fits_alignedContext (alignment : BitVec 32) : Fits (alignedContext alignment) where
  kvs := by
    change 1 < 2 ^ 31
    decide
  tensors := by
    change 1 < 2 ^ 31
    decide
  file := by
    change alignOffset defaultAlignment 90 + [alignOffset defaultAlignment 4].sum < 2 ^ 63
    decide

theorem roundTrips_iff_aligned16 :
    (∀ (others : List (Call floatTypes)) (other : GgufContext), build others = .ok other →
        SameShape other (alignedContext 16) → RoundTrips floatTypes ⟨true, false⟩ other) ↔
      Readable floatTypes ⟨true, false⟩ (alignedContext 16) :=
  roundTrips_iff (alignedCalls 16) ⟨true, false⟩ (alignedContext 16) (build_alignedCalls 16)
    (alignmentSet_alignedContext (k := 4) (by decide)) (fits_alignedContext 16)

/-- An alignment of 64 is written, but not followed: the data is not where the reader looks. -/
theorem roundTrip_fails_aligned64 :
    ∃ (calls : List (Call floatTypes)) (ctx : GgufContext), build calls = .ok ctx ∧
      AlignmentSet ctx ∧ Fits ctx ∧ ¬ RoundTrips floatTypes ⟨false, false⟩ ctx := by
  have set : AlignmentSet (alignedContext 64) := alignmentSet_alignedContext (k := 6) (by decide)
  refine ⟨alignedCalls 64, alignedContext 64, build_alignedCalls 64, set, fits_alignedContext 64, ?_⟩
  intro found
  obtain ⟨-, -, data⟩ := found.inversion
    (built_build (alignedCalls 64) _ (build_alignedCalls 64)) set (fits_alignedContext 64)
  have lost := data _ mem_cons_self
  have size : metaSize (alignedContext 64) = 90 := rfl
  have start : dataStart (alignedContext 64) = 128 := by
    decide +kernel
  rw [start, drop_of_length_le] at lost
  · exact absurd lost (by decide)
  · rw [length_written, fileSize, size]
    decide

end LlamaCpp.Gguf
