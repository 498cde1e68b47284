import LlamaCpp.Alloc.Gallocr
import Mathlib.Data.List.ReduceOption

/-!
# Places kept from one graph to the next

`ggml_gallocr_reserve_n` keeps the places of a graph by position: one for each leaf, and for
each node one for itself and one for each entry of its `src` array.
`ggml_gallocr_alloc_graph` gives them to the tensors that stand at the same positions of
another graph.  A `buffer_id` of -1 is `none`.  A call that aborts, reads before an array or
returns `false` is `none`; buffers can be allocated as large as they are asked for.
-/

set_option autoImplicit false

namespace LlamaCpp.Alloc

def ggmlMaxSrc : Nat := 16

/-- A graph with the `src` arrays of its tensors. -/
structure SourceArrays extends GgmlCgraph where
  srcAt : TensorId → Fin ggmlMaxSrc → Option TensorId
  srcs : ∀ t, (tensor t).src = (List.ofFn (srcAt t)).reduceOption

structure TensorAlloc where
  bufferId : Option Nat
  offset : Nat
  sizeMax : Nat
deriving DecidableEq

structure NodeAlloc where
  dst : TensorAlloc
  src : Fin ggmlMaxSrc → TensorAlloc

/-- What `ggml_gallocr` keeps between two graphs. -/
structure Reservation where
  nodeAllocs : List NodeAlloc
  leafAllocs : List TensorAlloc
  bufferSize : BufferType → Nat

def unusedAlloc : TensorAlloc := ⟨none, sizeMax, 0⟩

section Reserving

variable (env : Bufts) (graph : SourceArrays) (galloc : Gallocr)

def keptAlloc (t : TensorId) : TensorAlloc :=
  if (graph.tensor t).viewSrc.isSome || (graph.tensor t).data.isSome then unusedAlloc
  else
    let node := galloc.hash t
    ⟨some node.bufferId, node.offset, env.allocSize (env.buft node.bufferId) (graph.tensor t)⟩

def keptSource (source : Option TensorId) : TensorAlloc :=
  match source with
  | some src => keptAlloc env graph galloc src
  | none => unusedAlloc

def keptNode (node : TensorId) : NodeAlloc where
  dst := keptAlloc env graph galloc node
  src j := keptSource env graph galloc (graph.srcAt node j)

end Reserving

def reserveN (env : Bufts) (old : Reservation) (graph : SourceArrays)
    (nodeBufferIds leafBufferIds : Option (List Nat)) : Option Reservation := do
  let galloc ← allocGraphImpl env graph.toGgmlCgraph nodeBufferIds leafBufferIds
  some {
    nodeAllocs := graph.nodes.map (keptNode env graph galloc)
    leafAllocs := graph.leafs.map (keptAlloc env graph galloc)
    bufferSize := fun buft => max (old.bufferSize buft) (galloc.tallocs buft).maxSize }

def reserve (env : Bufts) (old : Reservation) (graph : SourceArrays) : Option Reservation :=
  reserveN env old graph none none

section Reusing

variable (env : Bufts) (nBuffers : Nat) (galloc : Reservation) (graph : SourceArrays)

/-- `ggml_gallocr_node_needs_realloc`, which is `true` when the place can be used. -/
def nodeNeedsRealloc (node : TensorId) (talloc : TensorAlloc) : Bool :=
  if (graph.tensor node).data.isSome || (graph.tensor node).viewSrc.isSome then true
  else
    match talloc.bufferId with
    | none => false
    | some bufferId =>
      if nBuffers ≤ bufferId then false
      else decide (env.allocSize (env.buft bufferId) (graph.tensor node) ≤ talloc.sizeMax)

/-- The checks on one node of `ggml_gallocr_needs_realloc`. -/
def nodeFits (node : TensorId) (nodeAlloc : NodeAlloc) : Bool :=
  nodeNeedsRealloc env nBuffers graph node nodeAlloc.dst &&
    (List.finRange ggmlMaxSrc).all fun j =>
      match graph.srcAt node j with
      | some src => nodeNeedsRealloc env nBuffers graph src (nodeAlloc.src j)
      | none => true

def needsRealloc : Bool :=
  if galloc.nodeAllocs.length ≠ graph.nodes.length then true
  else if galloc.leafAllocs.length ≠ graph.leafs.length then true
  else !(graph.nodes.zip galloc.nodeAllocs).all fun entry =>
    nodeFits env nBuffers graph entry.1 entry.2

abbrev Placement := TensorId → Option TensorAlloc

/-- `ggml_gallocr_init_tensor` with `ggml_backend_tensor_alloc`, which aborts when the tensor
reaches over the end of the buffer.  A view gets its address from the tensor it views. -/
def initTensor (placement : Placement) (tensor : TensorId) (alloc : TensorAlloc) :
    Option Placement :=
  if (graph.tensor tensor).viewSrc.isSome then some placement
  else if (graph.tensor tensor).data.isSome || (placement tensor).isSome then some placement
  else
    match alloc.bufferId with
    | none => none
    | some bufferId =>
      let buft := env.buft bufferId
      if alloc.offset + env.allocSize buft (graph.tensor tensor) ≤ galloc.bufferSize buft then
        some (Function.update placement tensor (some alloc))
      else none

def initLeafs (placement : Placement) : List TensorId → List TensorAlloc → Option Placement
  | leaf :: leafs, alloc :: allocs => do
      let next ← initTensor env galloc graph placement leaf alloc
      initLeafs next leafs allocs
  | _, _ => some placement

/-- The loop over the `src` array of a node. -/
def initSources (placement : Placement) :
    List (Option TensorId × TensorAlloc) → Option Placement
  | [] => some placement
  | (none, _) :: rest => initSources placement rest
  | (some src, alloc) :: rest => do
      let next ← initTensor env galloc graph placement src alloc
      initSources next rest

def sourceAllocs (node : TensorId) (nodeAlloc : NodeAlloc) :
    List (Option TensorId × TensorAlloc) :=
  List.ofFn fun j => (graph.srcAt node j, nodeAlloc.src j)

def initNodes (placement : Placement) : List TensorId → List NodeAlloc → Option Placement
  | node :: nodes, nodeAlloc :: allocs => do
      let sources ← initSources env galloc graph placement (sourceAllocs graph node nodeAlloc)
      let next ← initTensor env galloc graph sources node nodeAlloc.dst
      initNodes next nodes allocs
  | _, _ => some placement

def readied : Option Reservation :=
  if needsRealloc env nBuffers galloc graph then
    if nBuffers = 1 then reserve env galloc graph else none
  else some galloc

def allocGraph : Option (Reservation × Placement) := do
  let galloc ← readied env nBuffers galloc graph
  let leafs ← initLeafs env galloc graph (fun _ => none) graph.leafs galloc.leafAllocs
  let placement ← initNodes env galloc graph leafs graph.nodes galloc.nodeAllocs
  some (galloc, placement)

end Reusing

end LlamaCpp.Alloc
