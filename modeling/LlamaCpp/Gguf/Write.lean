import LlamaCpp.Gguf.Context

/-!
# Writing

The header, the key-value pairs, the tensor infos, zeros up to a multiple of the alignment of the
context, and the data of the tensors, each with zeros after it.
-/

set_option autoImplicit false

namespace LlamaCpp.Gguf

open LlamaCpp.Lib

def ggufMagic : Bytes := [0x47, 0x47, 0x55, 0x46]

def ggufVersion : BitVec 32 := 3

def ScalarType.layout (type : ScalarType) : Layout type.Value := Layout.word type.size _ rfl

def bwriteStr (val : CString) : Bytes :=
  Layout.u64.write (BitVec.ofNat 64 val.bytes.length) ++ val.bytes

def GgufValue.type {S : Type} : GgufValue S → GgufType
  | .scalar type _ => .scalar type
  | .str _ => .string
  | .arr _ _ | .arrStr _ => .array

def bwriteValue : GgufValue CString → Bytes
  | .scalar type value => type.layout.write value
  | .str text => bwriteStr text
  | .arr type items =>
    Layout.u32.write (GgufType.scalar type).code ++
      (Layout.u64.write (BitVec.ofNat 64 items.length) ++ type.layout.writeMany items)
  | .arrStr texts =>
    Layout.u32.write GgufType.string.code ++
      (Layout.u64.write (BitVec.ofNat 64 texts.length) ++ texts.flatMap bwriteStr)

def bwriteKv (kv : Kv CString) : Bytes :=
  bwriteStr kv.key ++ (Layout.u32.write kv.value.type.code ++ bwriteValue kv.value)

def bwriteInfo (info : TensorInfo CString) : Bytes :=
  bwriteStr info.name ++ (Layout.u32.write info.nDims ++
    (Layout.u64.writeMany ((List.ofFn info.ne).take info.nDims.toNat) ++
      (Layout.u32.write info.type ++ Layout.u64.write info.offset)))

def bwriteMeta (ctx : GgufContext) : Bytes :=
  ggufMagic ++ (Layout.u32.write ggufVersion ++
    (Layout.u64.write (BitVec.ofNat 64 ctx.infos.length) ++
      (Layout.u64.write (BitVec.ofNat 64 ctx.kv.length) ++
        (ctx.kv.flatMap bwriteKv ++ (ctx.infos.map TensorEntry.info).flatMap bwriteInfo))))

def bwritePadded (alignment : Nat) (bytes : Bytes) : Bytes :=
  bytes ++ List.replicate (ggmlPad bytes.length alignment - bytes.length) 0

def bwriteData (alignment : Nat) : BitVec 64 → List TensorEntry → Except String Bytes
  | _, [] => .ok []
  | offset, entry :: rest => do
      let size := BitVec.ofNat 64 (ggmlPad entry.data.length alignment)
      if offset = entry.info.offset then
        return bwritePadded alignment entry.data ++ (← bwriteData alignment (offset + size) rest)
      else .error "GGML_ASSERT(offset == info->offset)"

def writeToBuf (ctx : GgufContext) (onlyMeta : Bool) : Except String Bytes :=
  let start := bwritePadded ctx.alignment (bwriteMeta ctx)
  if onlyMeta then .ok start
  else do return start ++ (← bwriteData ctx.alignment 0 ctx.infos)

/-- `gguf_write_to_file`, as what the file holds afterwards. -/
def writeToFile (ctx : GgufContext) (onlyMeta : Bool) : Except String Bytes :=
  writeToBuf ctx onlyMeta

end LlamaCpp.Gguf
