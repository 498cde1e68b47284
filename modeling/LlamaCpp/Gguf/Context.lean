import LlamaCpp.Lib.Layout
import LlamaCpp.Ggml.Sizes
import Mathlib.Data.Nat.Bitwise

/-!
# Contexts

A `gguf_context` that is filled in memory: key-value pairs that can be overwritten and removed, and
the tensors whose data is to be written, each at an offset that depends on the one before.
-/

set_option autoImplicit false

namespace LlamaCpp.Gguf

open LlamaCpp.Lib
open LlamaCpp.Ggml

/-- The types of `gguf_type` with values of a fixed size. -/
inductive ScalarType
  | uint8
  | int8
  | uint16
  | int16
  | uint32
  | int32
  | float32
  | bool
  | uint64
  | int64
  | float64
deriving DecidableEq

def ScalarType.size : ScalarType → Nat
  | .uint8 | .int8 | .bool => 1
  | .uint16 | .int16 => 2
  | .uint32 | .int32 | .float32 => 4
  | .uint64 | .int64 | .float64 => 8

abbrev ScalarType.Value (type : ScalarType) : Type := BitVec (8 * type.size)

inductive GgufType
  | scalar (type : ScalarType)
  | string
  | array
deriving DecidableEq

def GgufType.code : GgufType → BitVec 32
  | .scalar .uint8 => 0
  | .scalar .int8 => 1
  | .scalar .uint16 => 2
  | .scalar .int16 => 3
  | .scalar .uint32 => 4
  | .scalar .int32 => 5
  | .scalar .float32 => 6
  | .scalar .bool => 7
  | .string => 8
  | .array => 9
  | .scalar .uint64 => 10
  | .scalar .int64 => 11
  | .scalar .float64 => 12

/-- What a `const char *` points to. -/
structure CString where
  bytes : Bytes
  noNul : 0 ∉ bytes
  short : bytes.length < 2 ^ 64 - 1
deriving DecidableEq

/-- `gguf_value`, with any kind of string; an array of strings has a type of its own. -/
inductive GgufValue (S : Type)
  | scalar (type : ScalarType) (value : type.Value)
  | str (text : S)
  | arr (type : ScalarType) (items : List type.Value)
  | arrStr (texts : List S)
deriving DecidableEq

/-- `gguf_kv`. -/
structure Kv (S : Type) where
  key : S
  value : GgufValue S
deriving DecidableEq

def GgufValue.map {S T : Type} (f : S → T) : GgufValue S → GgufValue T
  | .scalar type value => .scalar type value
  | .str text => .str (f text)
  | .arr type items => .arr type items
  | .arrStr texts => .arrStr (texts.map f)

def Kv.map {S T : Type} (f : S → T) (kv : Kv S) : Kv T := ⟨f kv.key, kv.value.map f⟩

/-- The number of an array's elements is an `int`. -/
def GgufValue.Short {S : Type} : GgufValue S → Prop
  | .arr _ items => items.length < 2 ^ 31
  | .arrStr texts => texts.length < 2 ^ 31
  | _ => True

/-- What `gguf_add_tensor` reads of a `ggml_tensor`, with the bytes of its data. -/
structure GgmlTensor (types : TypeTraits) where
  name : CString
  type : BitVec 32
  ne : Fin 4 → BitVec 64
  nb : Fin 4 → BitVec 64
  data : Bytes
  known : type < typeCount
  blocks : 0 < (types.blckSize type).toInt
  whole : (types.blckSize type).toNat ∣ (ne 0).toNat
  size : data.length = (nbytes types type ne nb).toNat

/-- The part of `gguf_tensor_info` that is written. -/
structure TensorInfo (S : Type) where
  name : S
  nDims : BitVec 32
  ne : Fin 4 → BitVec 64
  type : BitVec 32
  offset : BitVec 64
deriving DecidableEq

def TensorInfo.map {S T : Type} (f : S → T) (info : TensorInfo S) : TensorInfo T :=
  { info with name := f info.name }

/-- `gguf_tensor_info`. -/
structure TensorEntry where
  info : TensorInfo CString
  data : Bytes
deriving DecidableEq

/-- `gguf_context`, as far as it is filled in memory. -/
structure GgufContext where
  kv : List (Kv CString)
  infos : List TensorEntry
  alignment : Nat
deriving DecidableEq

def defaultAlignment : Nat := 32

def ggmlPad (x n : Nat) : Nat := Nat.ldiff (x + n - 1) (n - 1)

def initEmpty : GgufContext := { kv := [], infos := [], alignment := defaultAlignment }

def findKey (ctx : GgufContext) (key : CString) : Option Nat :=
  ctx.kv.findIdx? fun kv => kv.key.bytes == key.bytes

/-- `gguf_get_or_add_key` and the value that is set at the index it returns. -/
def setValue (ctx : GgufContext) (key : CString) (value : GgufValue CString) : GgufContext :=
  match findKey ctx key with
  | some idx => { ctx with kv := ctx.kv.modify idx fun kv => { kv with value } }
  | none => { ctx with kv := ctx.kv ++ [⟨key, value⟩] }

def removeKey (ctx : GgufContext) (key : CString) : GgufContext :=
  match findKey ctx key with
  | some idx => { ctx with kv := ctx.kv.eraseIdx idx }
  | none => ctx

section

variable (ctx : GgufContext) (key : CString)

def setValU8 (val : BitVec 8) : GgufContext := setValue ctx key (.scalar .uint8 val)

def setValI8 (val : BitVec 8) : GgufContext := setValue ctx key (.scalar .int8 val)

def setValU16 (val : BitVec 16) : GgufContext := setValue ctx key (.scalar .uint16 val)

def setValI16 (val : BitVec 16) : GgufContext := setValue ctx key (.scalar .int16 val)

def setValU32 (val : BitVec 32) : GgufContext := setValue ctx key (.scalar .uint32 val)

def setValI32 (val : BitVec 32) : GgufContext := setValue ctx key (.scalar .int32 val)

def setValF32 (val : BitVec 32) : GgufContext := setValue ctx key (.scalar .float32 val)

def setValU64 (val : BitVec 64) : GgufContext := setValue ctx key (.scalar .uint64 val)

def setValI64 (val : BitVec 64) : GgufContext := setValue ctx key (.scalar .int64 val)

def setValF64 (val : BitVec 64) : GgufContext := setValue ctx key (.scalar .float64 val)

def setValBool (val : BitVec 8) : GgufContext := setValue ctx key (.scalar .bool val)

def setValStr (val : CString) : GgufContext := setValue ctx key (.str val)

def setArrData (type : ScalarType) (data : List type.Value) : GgufContext :=
  setValue ctx key (.arr type data)

def setArrStr (data : List CString) : GgufContext := setValue ctx key (.arrStr data)

/-- The switch of `gguf_set_kv`. -/
def setKvValue : GgufValue CString → GgufContext
  | .scalar .uint8 val => setValU8 ctx key val
  | .scalar .int8 val => setValI8 ctx key val
  | .scalar .uint16 val => setValU16 ctx key val
  | .scalar .int16 val => setValI16 ctx key val
  | .scalar .uint32 val => setValU32 ctx key val
  | .scalar .int32 val => setValI32 ctx key val
  | .scalar .float32 val => setValF32 ctx key val
  | .scalar .uint64 val => setValU64 ctx key val
  | .scalar .int64 val => setValI64 ctx key val
  | .scalar .float64 val => setValF64 ctx key val
  | .scalar .bool val => setValBool ctx key val
  | .str text => setValStr ctx key text
  | .arr type items => setArrData ctx key type items
  | .arrStr texts => setArrStr ctx key texts

theorem setKvValue_eq (value : GgufValue CString) :
    setKvValue ctx key value = setValue ctx key value := by
  cases value with
  | scalar type value => cases type <;> rfl
  | str text => rfl
  | arr type items => rfl
  | arrStr texts => rfl

end

def setKv (ctx : GgufContext) (src : List (Kv CString)) : GgufContext :=
  src.foldl (fun ctx kv => setKvValue ctx kv.key kv.value) ctx

def nDims (ne : Fin 4 → BitVec 64) : BitVec 32 :=
  if 1 < (ne 3).toInt then 4 else if 1 < (ne 2).toInt then 3 else if 1 < (ne 1).toInt then 2 else 1

def addTensor {types : TypeTraits} (ctx : GgufContext) (tensor : GgmlTensor types) :
    Except String GgufContext :=
  if ctx.infos.any fun entry => entry.info.name.bytes == tensor.name.bytes then
    .error "duplicated tensor name"
  else
    let offset : BitVec 64 :=
      match ctx.infos.getLast? with
      | none => 0
      | some last => last.info.offset + BitVec.ofNat 64 (ggmlPad last.data.length ctx.alignment)
    let nDims := nDims tensor.ne
    let info : TensorInfo CString :=
      { name := tensor.name, nDims, type := tensor.type, offset
        ne := fun i => if i.val < nDims.toNat then tensor.ne i else 1 }
    .ok { ctx with infos := ctx.infos ++ [{ info, data := tensor.data }] }

inductive Call (types : TypeTraits)
  | setVal (key : CString) (type : ScalarType) (val : type.Value)
  | setValStr (key val : CString)
  | setArrData (key : CString) (type : ScalarType) (data : List type.Value)
      (short : data.length < 2 ^ 31)
  | setArrStr (key : CString) (data : List CString) (short : data.length < 2 ^ 31)
  | setKv (src : List (Kv CString)) (short : ∀ kv ∈ src, kv.value.Short)
  | removeKey (key : CString)
  | addTensor (tensor : GgmlTensor types)

def Call.apply {types : TypeTraits} (ctx : GgufContext) : Call types → Except String GgufContext
  | .setVal key type val => .ok (setKvValue ctx key (.scalar type val))
  | .setValStr key val => .ok (Gguf.setValStr ctx key val)
  | .setArrData key type data _ => .ok (Gguf.setArrData ctx key type data)
  | .setArrStr key data _ => .ok (Gguf.setArrStr ctx key data)
  | .setKv src _ => .ok (Gguf.setKv ctx src)
  | .removeKey key => .ok (Gguf.removeKey ctx key)
  | .addTensor tensor => Gguf.addTensor ctx tensor

def build {types : TypeTraits} (calls : List (Call types)) : Except String GgufContext :=
  calls.foldlM (fun ctx call => call.apply ctx) initEmpty

end LlamaCpp.Gguf
