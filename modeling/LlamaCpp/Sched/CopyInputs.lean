import LlamaCpp.Lib.Bytes
import LlamaCpp.Lib.IndexRuns
import LlamaCpp.Sched.SplitGraph

/-!
# Copying the inputs of a split

Before a split is computed its inputs are copied to their copies on the split's
backend.  With `only_active_experts` a host weight is copied in part when the
first node of the split multiplies by experts: the slices that the ids of that
node select, merged into runs, each with up to 512 bytes of what follows.
-/

set_option autoImplicit false

namespace LlamaCpp.Sched

open LlamaCpp.Lib

/-- The allocated graph: the buffer each tensor lies in, and what it holds once computed. -/
structure Placement where
  buffer : TensorId → Buffer
  isHost : BufferType → Bool
  bytes : TensorId → Nat → UInt8

abbrev DeviceMemory := TensorId → BackendId → Nat → UInt8

def TensorRef.origin : TensorRef → TensorId
  | .tensor t => t
  | .copy t _ _ => t

def isMoe (op : Op) : Bool := op = .mulMatId || op = .moeFusedUpGate

/-- `node->op == GGML_OP_MUL_MAT_ID ? node->src[2] : node->src[3]` -/
def idsPlace (op : Op) : Fin ggmlMaxSrc := if op = .mulMatId then ⟨2, by decide⟩ else ⟨3, by decide⟩

/-- `ids[k]` of the buffer that a tensor of 32-bit integers was read into. -/
def idAt (bytes : Nat → UInt8) (k : Nat) : Int :=
  (BitVec.ofNat 32
    (ofLeBytes [bytes (4 * k), bytes (4 * k + 1), bytes (4 * k + 2), bytes (4 * k + 3)])).toInt

def idsOf (t : Tensor) (bytes : Nat → UInt8) : List Int :=
  (List.range (t.ne 1)).flatMap fun i1 =>
    (List.range (t.ne 0)).map fun i0 => idAt bytes (i1 * t.nb 1 / 4 + i0 * t.nb 0 / 4)

/-- The bits of the ids.  An id outside `[0, n_expert)` is out of bounds in the source. -/
def uniqueIdsOf (nExpert : Nat) (ids : List Int) : List (BitVec 32) :=
  (ids.map Int.toNat).foldl setBit (List.replicate ((nExpert + 31) / 32) 0#32)

/-- The pairs `copy_experts` is called with. -/
def expertRuns (nExpert : Nat) (uniqueIds : List (BitVec 32)) : List (Nat × Nat) :=
  runsBelow (getBit uniqueIds) nExpert

/-- `ggml_backend_tensor_set_async`, which asserts that the write is within the tensor. -/
def tensorSet (t : Tensor) (source memory : Nat → UInt8) (offset size : Nat) :
    Option (Nat → UInt8) :=
  if offset + size ≤ t.nbytes then
    some fun p => if offset ≤ p ∧ p < offset + size then source p else memory p
  else none

/-- What `copy_experts` copies beyond the last slice, to have no NaN in the padding. -/
def paddingEnd (t : Tensor) (nExpert lastId : Nat) : Nat :=
  if lastId < nExpert - 1 then min (t.nb 2) 512 else 0

def copyExperts (t : Tensor) (source : Nat → UInt8) (nExpert : Nat) (memory : Nat → UInt8)
    (run : Nat × Nat) : Option (Nat → UInt8) :=
  tensorSet t source memory (run.1 * t.nb 2)
    ((run.2 - run.1 + 1) * t.nb 2 + paddingEnd t nExpert run.2)

structure CopyState where
  memory : DeviceMemory
  lastIds : Option TensorRef
  uniqueIds : List (BitVec 32)

variable (sched : BackendSched) (graph : CGraph) (place : Placement) (st : SplitState)

/-- `split->graph.nodes[0]`, if the split has a node. -/
def firstNode (split : Split) : Option TensorId :=
  if split.iStart < split.iEnd then graph.nodes[split.iStart]? else none

def isHostWeight (t : TensorId) : Bool :=
  (place.buffer t).usage = .weights && place.isHost (place.buffer t).buft

def activeNode (split : Split) (input : TensorId) : Option TensorId :=
  if (graph.tensor input).isInput then none
  else if sched.onlyActiveExperts && isHostWeight place input then
    (firstNode graph split).filter fun node => isMoe (graph.tensor node).op
  else none

/-- `ids_tensor`: an input that is copied only later is read in its original place. -/
def idsTensor (split : Split) (later : List TensorId) (idsRef : TensorRef) : TensorRef :=
  match later.find? fun input => st.copies input split.backendId sched.curCopy = some idsRef with
  | some input => .tensor input
  | none => idsRef

def refreshIds (nExpert : Nat) (state : CopyState) (ref : TensorRef) : CopyState :=
  if state.lastIds = some ref then state
  else
    { state with
      lastIds := some ref
      uniqueIds := uniqueIdsOf nExpert (idsOf (graph.tensor ref.origin) (place.bytes ref.origin)) }

def CopyState.write (state : CopyState) (input : TensorId) (backend : BackendId)
    (contents : Nat → UInt8) : CopyState :=
  { state with memory := fun t b => if t = input ∧ b = backend then contents else state.memory t b }

def copyWhole (split : Split) (state : CopyState) (input : TensorId) : Option CopyState :=
  (tensorSet (graph.tensor input) (place.bytes input) (state.memory input split.backendId) 0
    (graph.tensor input).nbytes).map (state.write input split.backendId)

/-- One input of the split; `later` are those listed after it. -/
def copyInput (split : Split) (later : List TensorId) (state : CopyState) (input : TensorId) :
    Option CopyState :=
  match activeNode sched graph place split input with
  | none => copyWhole graph place split state input
  | some node => do
      let idsRef ← st.srcs node (idsPlace (graph.tensor node).op)
      let weights ← st.srcs node ⟨0, ggmlMaxSrc_pos⟩
      let nExpert := (graph.tensor weights.origin).ne 2
      let state := refreshIds graph place nExpert state (idsTensor sched st split later idsRef)
      if 1 < (graph.tensor input).ne 2 then
        let contents ← (expertRuns nExpert state.uniqueIds).foldlM
          (copyExperts (graph.tensor input) (place.bytes input) nExpert)
          (state.memory input split.backendId)
        pure (state.write input split.backendId contents)
      else copyWhole graph place split state input

def copyInputsFrom (split : Split) : List TensorId → CopyState → Option CopyState
  | [], state => some state
  | input :: later, state => do
      let next ← copyInput sched graph place st split later state input
      copyInputsFrom split later next

/-- `ggml_backend_sched_copy_inputs`; `last_ids_tensor` is passed by value and null. -/
def copyInputs (memory : DeviceMemory) (split : Split) : Option DeviceMemory :=
  (copyInputsFrom sched graph place st split split.inputs ⟨memory, none, []⟩).map CopyState.memory

def copySplits (memory : DeviceMemory) (splits : List Split) : Option DeviceMemory :=
  splits.foldlM (copyInputs sched graph place st) memory

end LlamaCpp.Sched
