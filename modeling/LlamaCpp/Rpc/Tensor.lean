import LlamaCpp.Lib.Layout
import LlamaCpp.Ggml.Sizes

/-!
# Tensors on the wire

The client writes a tensor as a packed record with the addresses of its sources in place of the
pointers.  The server makes a tensor of it, whose buffer must be one of its own and long enough.
-/

set_option autoImplicit false

namespace LlamaCpp.Rpc

open LlamaCpp.Lib
open LlamaCpp.Ggml

/-- A text that fits in `char [GGML_MAX_NAME]` with its end. -/
structure Name where
  text : Bytes
  short : text.length < 64
  noNul : 0 ∉ text

theorem Name.text_inj {a b : Name} : a.text = b.text ↔ a = b := by
  cases a
  cases b
  simp

instance : DecidableEq Name := fun _ _ => decidable_of_iff _ Name.text_inj

/-- What `ggml_tensor` holds, with sources of any kind of pointer.  The buffer is the server's
address of it, 0 if there is none. -/
structure Tensor (P : Type) where
  type : BitVec 32
  buffer : BitVec 64
  ne : Fin 4 → BitVec 64
  nb : Fin 4 → BitVec 64
  op : BitVec 32
  opParams : Fin 16 → BitVec 32
  flags : BitVec 32
  src : Fin 16 → Option P
  viewSrc : Option P
  viewOffs : BitVec 64
  data : BitVec 64
  name : Name
deriving DecidableEq

/-- The places of a tensor that point to another one, in the order in which they are followed. -/
inductive Link
  | src (i : Fin 16)
  | viewSrc
deriving DecidableEq

def links : List Link := (List.finRange 16).map .src ++ [.viewSrc]

theorem mem_links (link : Link) : link ∈ links := by
  cases link with
  | src i => exact List.mem_append_left _ (List.mem_map.mpr ⟨i, List.mem_finRange i, rfl⟩)
  | viewSrc => exact List.mem_append_right _ (List.mem_singleton_self _)

section

variable {P Q : Type}

def Tensor.link (tensor : Tensor P) : Link → Option P
  | .src i => tensor.src i
  | .viewSrc => tensor.viewSrc

def Tensor.setLink (tensor : Tensor P) (link : Link) (target : P) : Tensor P :=
  match link with
  | .src i => { tensor with src := fun j => if j = i then some target else tensor.src j }
  | .viewSrc => { tensor with viewSrc := some target }

def Tensor.mapLinks (image : P → Option Q) (tensor : Tensor P) : Tensor Q :=
  { tensor with src := fun i => tensor.src i >>= image, viewSrc := tensor.viewSrc >>= image }

end

structure RpcTensor where
  id : BitVec 64
  type : BitVec 32
  buffer : BitVec 64
  ne : Fin 4 → BitVec 64
  nb : Fin 4 → BitVec 64
  op : BitVec 32
  opParams : Fin 16 → BitVec 32
  flags : BitVec 32
  src : Fin 16 → BitVec 64
  viewSrc : BitVec 64
  viewOffs : BitVec 64
  data : BitVec 64
  name : Fin 64 → UInt8
  padding : Fin 4 → UInt8
deriving DecidableEq

def RpcTensor.link (tensor : RpcTensor) : Link → BitVec 64
  | .src i => tensor.src i
  | .viewSrc => tensor.viewSrc

/-- The packed fields of `rpc_tensor`. -/
def rpcTensorLayout : Layout RpcTensor :=
  let fields := Layout.pair .u64 <| .pair .u32 <| .pair .u64 <| .pair (.array 4 .u64) <|
    .pair (.array 4 .u64) <| .pair .u32 <| .pair (.array 16 .u32) <| .pair .u32 <|
    .pair (.array 16 .u64) <| .pair .u64 <| .pair .u64 <| .pair .u64 <|
    .pair (.array 64 .byte) (.array 4 .byte)
  fields.equiv
    (fun (id, type, buffer, ne, nb, op, opParams, flags, src, viewSrc, viewOffs, data, name,
        padding) =>
      { id, type, buffer, ne, nb, op, opParams, flags, src, viewSrc, viewOffs, data, name, padding })
    (fun tensor => (tensor.id, tensor.type, tensor.buffer, tensor.ne, tensor.nb, tensor.op,
      tensor.opParams, tensor.flags, tensor.src, tensor.viewSrc, tensor.viewOffs, tensor.data,
      tensor.name, tensor.padding))
    fun _ => rfl

example : rpcTensorLayout.size = 376 := rfl

end LlamaCpp.Rpc
