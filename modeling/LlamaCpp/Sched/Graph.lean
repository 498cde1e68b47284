import Mathlib.Data.Fintype.Basic
import Mathlib.Algebra.GroupWithZero.Nat

/-!
# Compute graphs as the backend scheduler sees them

A graph is a table of tensors with the order in which its nodes are computed.
A tensor names its sources and, if it has no memory of its own, the tensor it
views; a scheduler knows for each backend its buffer type and which buffer
types the backend can read.
-/

set_option autoImplicit false

namespace LlamaCpp.Sched

def ggmlMaxSrc : Nat := 16

theorem ggmlMaxSrc_pos : 0 < ggmlMaxSrc := by decide

/-- The words of `op_params`: `GGML_MAX_OP_PARAMS / sizeof(int32_t)`. -/
def maxOpParams : Nat := 64 / 4

def schedMaxSplitInputs : Nat := 64

def schedMaxSplits : Nat := 4096

abbrev TensorId := Nat

abbrev BackendId := Nat

abbrev BufferType := Nat

/-- The operations the scheduler tells apart; `other` stands for each of the rest. -/
inductive Op
  | none | add | reshape | view | permute | transpose | mulMatId | moeFusedUpGate
  | reduce | fakeCpy | other (code : Nat)
  deriving DecidableEq

def isViewOp (op : Op) : Bool :=
  op = .view || op = .reshape || op = .permute || op = .transpose

inductive BufferUsage
  | any | weights | compute
  deriving DecidableEq

structure Buffer where
  buft : BufferType
  usage : BufferUsage

/-- A tensor has a first dimension. -/
scoped instance neZero_dims : NeZero (4 : Nat) := ⟨by decide⟩

/-- `nbytes` is `ggml_nbytes`, which the type settles with the dimensions and strides. -/
structure Tensor where
  op : Op
  ne : Fin 4 → Nat
  nb : Fin 4 → Nat
  nbytes : Nat
  opParams : Fin maxOpParams → Int
  srcs : Fin ggmlMaxSrc → Option TensorId
  viewSrc : Option TensorId
  isInput : Bool
  buffer : Option Buffer

structure CGraph where
  tensor : TensorId → Tensor
  nodes : List TensorId
  nodup : nodes.Nodup

structure BackendSched where
  supportsBuft : BackendId → BufferType → Bool
  bufts : BackendId → BufferType
  nCopies : Nat
  curCopy : Nat
  curCopy_lt : curCopy < nCopies
  onlyActiveExperts : Bool

variable (sched : BackendSched) (graph : CGraph)

/-- The sources of a node with their places in `node->src`, null entries left out. -/
def sources (node : TensorId) : List (Fin ggmlMaxSrc × TensorId) :=
  (List.finRange ggmlMaxSrc).filterMap fun j => ((graph.tensor node).srcs j).map (j, ·)

/-- `ggml_backend_sched_buffer_supported`: the type of the buffer the tensor lies in, and
before it is allocated that of the backend it is assigned to. -/
def bufferSupported (backendIds : TensorId → Option BackendId) (t : TensorId)
    (backend : BackendId) : Bool :=
  let holder := (graph.tensor t).viewSrc.getD t
  let buft : Option BufferType :=
    match (graph.tensor holder).buffer with
    | some buffer => some buffer.buft
    | none =>
      match backendIds t with
      | some assigned => some (sched.bufts assigned)
      | none => ((graph.tensor t).viewSrc.bind backendIds).map sched.bufts
  match buft with
  | some buft => sched.supportsBuft backend buft
  | none => false

theorem sources_length_le (node : TensorId) : (sources graph node).length ≤ ggmlMaxSrc := by
  have bound := List.length_filterMap_le (fun j => ((graph.tensor node).srcs j).map (j, ·))
    (List.finRange ggmlMaxSrc)
  rwa [List.length_finRange] at bound

def plainTensor : Tensor where
  op := .none
  ne i := if i = 0 then 256 else if i = 1 then 32 else 1
  nb i := if i = 0 then 4 else if i = 1 then 1024 else 32768
  nbytes := 32768
  opParams _ := 0
  srcs _ := none
  viewSrc := none
  isInput := false
  buffer := none

def twoBackends : BackendSched where
  supportsBuft backend buft := backend = buft
  bufts := id
  nCopies := 1
  curCopy := 0
  curCopy_lt := by decide
  onlyActiveExperts := true

end LlamaCpp.Sched
