import LlamaCpp.Lib.Packing
import LlamaCpp.Sched.CopyInputs
import Mathlib.Algebra.GroupWithZero.Nat

/-!
# Memory of their own for the input copies

In graph split mode the copies of a backend's inputs are moved from where the
graph allocator put them into a buffer of the scheduler.  A first pass over the
splits of the backend measures how much is needed if the buffer may wrap, a
second one places the copies and rewrites the addresses.
-/

set_option autoImplicit false

namespace LlamaCpp.Sched

open LlamaCpp.Lib

structure MemoryBuffer where
  base : Nat
  size : Nat

/-- What the pass reads of the scheduler; `allocBase` is where a new buffer is put. -/
structure Memory where
  nBackends : Nat
  isCpu : BackendId → Bool
  maxExtraAlloc : Nat
  inputMemory : BackendId → Option MemoryBuffer
  allocBase : BackendId → Nat → Nat

/-- `t->data` for the tensors of the graph and their copies. -/
abbrev Addresses := TensorRef → Option Nat

variable (sched : BackendSched) (graph : CGraph) (place : Placement) (st : SplitState)

/-- `tensor_size`: the bytes of the tensor rounded up to 256. -/
def tensorSize (t : TensorId) : Nat := 256 * (((graph.tensor t).nbytes + 255) / 256)

def movedInputs (split : Split) : List TensorId :=
  split.inputs.filter fun t => !place.isHost (place.buffer t).buft

def splitSize (split : Split) : Nat := ((movedInputs place split).map (tensorSize graph)).sum

structure Measure where
  inputSize : Nat
  maxInputSize : Nat
  lastSplit : Nat

def measureSplit (maxExtraAlloc : Nat) (m : Measure) (entry : Split × Nat) : Option Measure :=
  if entry.1.inputs.length < 1 then some m
  else if maxExtraAlloc < m.inputSize + splitSize graph place entry.1 then
    if entry.2 - m.lastSplit < 3 then none
    else some ⟨splitSize graph place entry.1, max m.maxInputSize m.inputSize, entry.2 - 1⟩
  else some { m with inputSize := m.inputSize + splitSize graph place entry.1 }

/-- `max_input_size`, if the buffer can be used. -/
def maxInputSize (maxExtraAlloc : Nat) (splits : List Split) : Option Nat :=
  (splits.zipIdx.foldlM (measureSplit graph place maxExtraAlloc) ⟨0, 0, 0⟩).map fun m =>
    max m.maxInputSize m.inputSize

def bufferOf (mem : Memory) (backend size : Nat) : MemoryBuffer :=
  match mem.inputMemory backend with
  | some old => if old.size < size then ⟨mem.allocBase backend size, size⟩ else old
  | none => ⟨mem.allocBase backend size, size⟩

def visitedSources (split : Split) : List TensorRef :=
  ((graph.nodes.drop split.iStart).take (split.iEnd - split.iStart)).flatMap fun node =>
    (List.finRange ggmlMaxSrc).filterMap (st.srcs node)

def setAddress (data : Addresses) (ref : TensorRef) (address : Nat) : Addresses :=
  fun other => if other = ref then some address else data other

/-- `if (node->src[l]->data == input_cpy->data) node->src[l]->data = ptr;` -/
def moveSource (copy : TensorRef) (address : Nat) (data : Addresses) (src : TensorRef) : Addresses :=
  if data src = data copy then setAddress data src address else data

def moveInput (sources : List TensorRef) (copy : TensorRef) (address : Nat) (data : Addresses) :
    Addresses :=
  setAddress (sources.foldl (moveSource copy address) data) copy address

/-- The inputs of a split from `address` on; a listed input has a copy. -/
def moveInputs (split : Split) : List TensorId → Nat → Addresses → Addresses
  | [], _, data => data
  | t :: rest, address, data =>
    match st.copies t split.backendId sched.curCopy with
    | some copy =>
      moveInputs split rest (address + tensorSize graph t)
        (moveInput (visitedSources graph st split) copy address data)
    | none => data

structure Placing where
  data : Addresses
  inputSize : Nat

/-- One split of the second pass; `ptr` is `base + input_size` whenever a split begins. -/
def placeSplit (base size : Nat) (p : Placing) (split : Split) : Placing :=
  let used := if size < p.inputSize + splitSize graph place split then 0 else p.inputSize
  ⟨moveInputs sched graph st split (movedInputs place split) (base + used) p.data,
    used + splitSize graph place split⟩

def backendSplits (backend : BackendId) : List Split :=
  st.splits.filter fun split => split.backendId = backend

def prepareBackend (mem : Memory) (data : Addresses) (backend : BackendId) : Addresses :=
  if mem.isCpu backend then data
  else
    match maxInputSize graph place mem.maxExtraAlloc (backendSplits st backend) with
    | none => data
    | some size =>
      if size = 0 then data
      else
        ((backendSplits st backend).foldl
          (placeSplit sched graph place st (bufferOf mem backend size).base size) ⟨data, 0⟩).data

/-- `ggml_sched_prepare_graph` in graph split mode, up to the flags `own_cpy` and `needs_sync`. -/
def prepareGraph (mem : Memory) (data : Addresses) : Addresses :=
  (List.range mem.nBackends).foldl (prepareBackend sched graph place st mem) data

end LlamaCpp.Sched
