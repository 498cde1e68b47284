import LlamaCpp.Gguf.Write
import LlamaCpp.Lib.Reader

/-!
# Reading

`gguf_init_from_file` on the bytes of a file, with the sizes and the divisors that it computes.
Where the code goes on after a read that failed, it gives up at the end of the loop or in an
assertion; the model gives up at once.
-/

set_option autoImplicit false

namespace LlamaCpp.Gguf

open LlamaCpp.Lib
open LlamaCpp.Ggml

def sizeMax : Nat := 2 ^ 64 - 1

def int64Max : BitVec 64 := BitVec.ofNat 64 (2 ^ 63 - 1)

def GgufType.ofCode (code : BitVec 32) : Option GgufType :=
  match code.toNat with
  | 0 => some (.scalar .uint8)
  | 1 => some (.scalar .int8)
  | 2 => some (.scalar .uint16)
  | 3 => some (.scalar .int16)
  | 4 => some (.scalar .uint32)
  | 5 => some (.scalar .int32)
  | 6 => some (.scalar .float32)
  | 7 => some (.scalar .bool)
  | 8 => some .string
  | 9 => some .array
  | 10 => some (.scalar .uint64)
  | 11 => some (.scalar .int64)
  | 12 => some (.scalar .float64)
  | _ => none

@[simp] theorem GgufType.ofCode_code (type : GgufType) : GgufType.ofCode type.code = some type := by
  cases type with
  | scalar type => cases type <;> rfl
  | string => rfl
  | array => rfl

/-- What the code computes on the way: a `size_t`, as the number it stands for, or a divisor. -/
inductive Step
  | size (value : Nat)
  | divisor (value : Nat)

def Step.Fine : Step → Prop
  | .size value => value < 2 ^ 64
  | .divisor value => value ≠ 0

abbrev GgufReader (α : Type) := Reader Step α

def ggmlAssert (condition : Bool) : GgufReader Unit :=
  if condition then return () else throw "GGML_ASSERT"

def freadStr (failure : String) : GgufReader Bytes := do
  let n ← freadEl failure Layout.u64
  if n.toNat = sizeMax then throw failure
  else do
    note (.size (n.toNat + 1))
    fread failure n.toNat

def kvFailure : String := "failed to read key-value pairs"

def strSize : Nat := 16

def freadArr (n : BitVec 64) : GgufType → GgufReader (GgufValue Bytes)
  | .scalar type => do
      note (.divisor type.size)
      if sizeMax / type.size ≤ n.toNat then throw "array size is too large"
      else do
        note (.size (n.toNat * type.size))
        let data ← fread kvFailure (n.toNat * type.size)
        return .arr type (type.layout.readMany n.toNat data)
  | .string =>
    if sizeMax / strSize ≤ n.toNat then throw "array size is too large"
    else do
      note (.size (n.toNat * strSize))
      let texts ← repeatRead (freadStr kvFailure) n.toNat
      return .arrStr texts
  | .array => throw "invalid type"

def freadValue : GgufType → GgufReader (GgufValue Bytes)
  | .scalar type => do
      let value ← freadEl kvFailure type.layout
      return .scalar type value
  | .string => do
      let text ← freadStr kvFailure
      return .str text
  | .array => do
      let code ← freadEl kvFailure Layout.u32
      let n ← freadEl kvFailure Layout.u64
      match GgufType.ofCode code with
      | some type => freadArr n type
      | none => throw "invalid type"

def freadKv : GgufReader (Kv Bytes) := do
  let key ← freadStr kvFailure
  let code ← freadEl kvFailure Layout.u32
  match GgufType.ofCode code with
  | some type => do
      let value ← freadValue type
      return ⟨key, value⟩
  | none => throw "invalid type"

def infoFailure : String := "failed to read tensor info"

def wellShaped {S : Type} (info : TensorInfo S) : Bool :=
  info.nDims.toNat ≤ 4 && info.type < typeCount &&
    ∀ i : Fin 4, i.val < info.nDims.toNat → 0 < info.ne i

/-- The conditions that `gguf_tensor_info_sanitize` asserts. -/
def sanitize {S : Type} (info : TensorInfo S) : Bool :=
  wellShaped info && info.ne 0 < int64Max / info.ne 1 &&
    info.ne 0 * info.ne 1 < int64Max / info.ne 2 &&
    info.ne 0 * info.ne 1 * info.ne 2 < int64Max / info.ne 3

/-- The test for an overflow of the number of elements; `count` is the product so far. -/
def assertCount (count dim : BitVec 64) : GgufReader Unit := do
  note (.divisor dim.toNat)
  ggmlAssert (count < int64Max / dim)
  note (.size (count.toNat * dim.toNat))

/-- `gguf_tensor_info_sanitize`. -/
def assertSane {S : Type} (info : TensorInfo S) : GgufReader Unit := do
  ggmlAssert (wellShaped info)
  assertCount (info.ne 0) (info.ne 1)
  assertCount (info.ne 0 * info.ne 1) (info.ne 2)
  assertCount (info.ne 0 * info.ne 1 * info.ne 2) (info.ne 3)

def freadInfoFields : GgufReader (TensorInfo Bytes) := do
  let name ← freadStr infoFailure
  let nDims ← freadEl infoFailure Layout.u32
  if 4 < nDims.toNat then throw "GGML_ASSERT"
  else do
    let ne ← repeatRead (freadEl infoFailure Layout.u64) nDims.toNat
    let type ← freadEl infoFailure Layout.u32
    let offset ← freadEl infoFailure Layout.u64
    return { name, nDims, ne := fun i => ne.getD i 1, type, offset }

def freadInfo : GgufReader (TensorInfo Bytes) := do
  let info ← freadInfoFields
  assertSane info
  return info

/-- What `strcmp` compares. -/
def cText (bytes : Bytes) : Bytes := bytes.takeWhile (· ≠ 0)

/-- The loop over the infos, of which `before` are read. -/
def freadInfos : Nat → List (TensorInfo Bytes) → GgufReader (List (TensorInfo Bytes))
  | 0, before => return before
  | count + 1, before => do
      let info ← freadInfo
      if before.any fun other => cText info.name == cText other.name then throw infoFailure
      else freadInfos count (before ++ [info])

def headerFailure : String := "failed to read header"

/-- The size of a `gguf_tensor_info`. -/
def infoSize : Nat := 88

def kvSize : Nat := 48

def tensorOverhead : Nat := 432

def headerOk (nTensors nKv : BitVec 64) : Bool :=
  nTensors.toNat < sizeMax / 2 / infoSize && nTensors.toNat < sizeMax / 2 / tensorOverhead &&
    nKv.toNat < sizeMax / 2 / kvSize

def freadMeta : GgufReader (List (Kv Bytes) × List (TensorInfo Bytes)) := do
  let magic ← fread "invalid magic characters" 4
  if magic ≠ ggufMagic then throw "invalid magic characters"
  else do
    let version ← freadEl headerFailure Layout.u32
    let nTensors ← freadEl headerFailure Layout.u64
    let nKv ← freadEl headerFailure Layout.u64
    if version = 1 then throw "GGUFv1 is no longer supported"
    else if headerOk nTensors nKv then do
      note (.size (nKv.toNat * kvSize))
      let kv ← repeatRead freadKv nKv.toNat
      note (.size (nTensors.toNat * infoSize))
      let infos ← freadInfos nTensors.toNat []
      return (kv, infos)
    else throw headerFailure

def alignmentKey : Bytes := "general.alignment".toUTF8.data.toList

/-- `gguf_find_key` for the alignment of the file, and what `gguf_get_val_u32` accepts. -/
def keyAlignment (kv : List (Kv Bytes)) : Option Nat :=
  match kv.find? fun kv => cText kv.key == alignmentKey with
  | none => some defaultAlignment
  | some ⟨_, .scalar .uint32 val⟩ => some val.toNat
  | some _ => none

def fileAlignment (kv : List (Kv Bytes)) : GgufReader Nat :=
  match keyAlignment kv with
  | some alignment => return alignment
  | none => throw "GGML_ASSERT"

/-- `offset` and the padding that takes it to a multiple of the alignment. -/
def alignOffset (alignment offset : Nat) : Nat :=
  if offset % alignment ≠ 0 then offset + (alignment - offset % alignment) else offset

/-- `GGML_PAD` of a `size_t`. -/
def ggmlPad64 (x n : BitVec 64) : BitVec 64 := (x + n - 1) &&& ~~~(n - 1)

/-- The number of elements of a tensor, as `int64_t`. -/
def nelements {S : Type} (info : TensorInfo S) : BitVec 64 :=
  info.ne 0 * info.ne 1 * info.ne 2 * info.ne 3

section

variable (types : TypeTraits)

/-- `ggml_row_size` and what it computes on the way. -/
def noteRowSize (type : BitVec 32) (ne : BitVec 64) : GgufReader (BitVec 64) := do
  note (.size ((types.typeSize type).toNat * ne.toNat))
  note (.divisor (types.blckSize type).toNat)
  note (.size ((types.rowMetaSize type).toNat +
    (types.typeSize type * ne / types.blckSize type).toNat))
  return rowSize types type ne

def addSize {S : Type} (alignment : Nat) (size : BitVec 64) (info : TensorInfo S) :
    GgufReader (BitVec 64) := do
  let blckSize := types.blckSize info.type
  note (.divisor blckSize.toNat)
  if blckSize = 0 then throw "division by zero"
  else if (nelements info).toInt.tmod blckSize.toInt ≠ 0 then
    throw "number of elements is not a multiple of block size"
  else do
    let sizeCur ← noteRowSize types info.type (nelements info)
    let n := BitVec.ofNat 64 alignment
    note (.size (sizeCur.toNat + n.toNat))
    note (.size (size.toNat + (ggmlPad64 sizeCur n).toNat))
    return size + ggmlPad64 sizeCur n

def dataSize {S : Type} (alignment : Nat) (infos : List (TensorInfo S)) : GgufReader (BitVec 64) :=
  infos.foldlM (addSize types alignment) 0

def noteProduct (ne : Fin 4 → BitVec 64) (size : BitVec 64) (dims : List (Fin 4)) :
    GgufReader (BitVec 64) :=
  dims.foldlM
    (fun size i => do
      note (.size (size.toNat * (ne i).toNat))
      return size * ne i)
    size

/-- The strides that `ggml_new_tensor` sets. -/
def newTensorNb {S : Type} (info : TensorInfo S) : Fin 4 → BitVec 64
  | 0 => types.typeSize info.type
  | 1 => rowSize types info.type (info.ne 0)
  | 2 => rowSize types info.type (info.ne 0) * info.ne 1
  | 3 => rowSize types info.type (info.ne 0) * info.ne 1 * info.ne 2

/-- `ggml_new_tensor` for a tensor without memory of its own. -/
def newTensor {S : Type} (info : TensorInfo S) : GgufReader Unit := do
  let row ← noteRowSize types info.type (info.ne 0)
  -- `data_size`
  let _ ← noteProduct info.ne row ([1, 2, 3].filter fun i : Fin 4 => i.val < info.nDims.toNat)
  -- `nb`
  let _ ← noteProduct info.ne row [1, 2]

/-- `gguf_init_params`; `ctx` says that it is not a null pointer. -/
structure InitParams where
  ctx : Bool
  noAlloc : Bool

/-- The memory for the tensors, their data if it is to be loaded, and the tensors.  `available` is
what the file holds from the start of the data on. -/
def createTensors {S : Type} (params : InitParams) (infos : List (TensorInfo S)) (size : BitVec 64)
    (available : Nat) : GgufReader Unit :=
  if params.ctx then do
    let memSize := if params.noAlloc then infos.length * tensorOverhead
      else (infos.length + 1) * tensorOverhead + size.toNat
    note (.size memSize)
    -- `GGML_MEM_ALIGN` in `ggml_init`
    note (.size (memSize + 16))
    if params.noAlloc = false ∧ available < size.toNat then throw "failed to read tensor data"
    else infos.forM (newTensor types)
  else return ()

/-- `gguf_context`, as `gguf_init_from_file` fills it. -/
structure GgufFile where
  kv : List (Kv Bytes)
  infos : List (TensorInfo Bytes)
  alignment : Nat
  offset : Nat
  size : BitVec 64
deriving DecidableEq

/-- What is done with the data section, which starts at `offset`. -/
def readData (params : InitParams) (length : Nat) (kv : List (Kv Bytes))
    (infos : List (TensorInfo Bytes)) (alignment offset : Nat) : GgufReader GgufFile := do
  note (.size offset)
  let size ← dataSize types alignment infos
  createTensors types params infos size (length - offset)
  return { kv, infos, alignment, offset, size }

def finishFile (params : InitParams) (length : Nat) (kv : List (Kv Bytes))
    (infos : List (TensorInfo Bytes)) : GgufReader GgufFile := do
  let alignment ← fileAlignment kv
  note (.divisor alignment)
  if alignment = 0 then throw "division by zero"
  else do
    let left ← remaining
    readData types params length kv infos alignment (alignOffset alignment (length - left))

def readFile (params : InitParams) (file : Bytes) : GgufReader GgufFile := do
  let (kv, infos) ← freadMeta
  finishFile types params file.length kv infos

def initFromFile (params : InitParams) (file : Bytes) : Except String GgufFile :=
  (readFile types params file ⟨file, []⟩).1

/-- What `gguf_init_from_file` computes. -/
def initSteps (params : InitParams) (file : Bytes) : List Step :=
  (readFile types params file ⟨file, []⟩).2.notes

end

end LlamaCpp.Gguf
