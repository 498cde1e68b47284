import LlamaCpp.Alloc.Tiling
import Mathlib.Data.Fintype.Basic

/-!
# The graph allocator

`allocGraphImpl` is `ggml_gallocr_alloc_graph_impl`.  Tensors are named by numbers, the
hash table is a function on them, and a buffer is named by its buffer type, because
`ggml_gallocr_new_n` gives equal buffer types one allocator and `ggml_gallocr_reserve_n`
gives them one buffer.  The counters are `int` in the source; the graph has far too few
references to overflow them.  Assertions are off, as in a release build.
-/

set_option autoImplicit false

namespace LlamaCpp.Alloc

open LlamaCpp.Lib

inductive GgmlOp
  | none
  | scale
  | diagMaskZero
  | diagMaskInf
  | add
  | addId
  | add1
  | sub
  | mul
  | div
  | sqr
  | sqrt
  | log
  | unary
  | rope
  | rmsNorm
  | softMax
  | other (code : Nat)
deriving DecidableEq

def ggmlOpCanInplace : GgmlOp → Bool
  | .none | .other _ => false
  | _ => true

abbrev TensorId := Nat

/-- The fields of `ggml_tensor` that allocation reads; `src` holds the sources that are
not `NULL`, in order. -/
structure GgmlTensor where
  type : Nat
  ne : Fin 4 → Nat
  nb : Fin 4 → Nat
  op : GgmlOp
  flagInput : Bool
  flagOutput : Bool
  viewSrc : Option TensorId
  src : List TensorId
  data : Option Nat

structure GgmlCgraph where
  tensor : TensorId → GgmlTensor
  leafs : List TensorId
  nodes : List TensorId

def ggmlIsView (t : GgmlTensor) : Bool := t.viewSrc.isSome

def ggmlAreSameLayout (a b : GgmlTensor) : Bool :=
  decide (a.type = b.type) && decide (∀ i, a.ne i = b.ne i ∧ a.nb i = b.nb i)

abbrev BufferType := Nat

structure Bufts where
  buft : Nat → BufferType
  alignment : BufferType → Nat
  allocSize : BufferType → GgmlTensor → Nat

structure HashNode where
  nChildren : Int
  nViews : Int
  bufferId : Nat
  offset : Nat
  allocated : Bool
deriving DecidableEq

structure Gallocr where
  hash : TensorId → HashNode
  tallocs : BufferType → DynTallocr

def getNodeBufferId (nodeBufferIds : Option (List Nat)) (i : Nat) : Nat :=
  match nodeBufferIds with
  | some ids => ids.getD i 0
  | none => 0

section Allocating

variable (env : Bufts) (graph : GgmlCgraph)

def Gallocr.update (galloc : Gallocr) (t : TensorId) (node : HashNode) : Gallocr :=
  { galloc with hash := Function.update galloc.hash t node }

def isAllocated (galloc : Gallocr) (t : TensorId) : Bool :=
  (graph.tensor t).data.isSome || (galloc.hash t).allocated

def isOutput (t : TensorId) : Bool := (graph.tensor t).flagOutput

def mayReuse (galloc : Gallocr) (node parent : TensorId) : Bool :=
  (galloc.hash parent).allocated &&
    !(isOutput graph parent || (graph.tensor parent).viewSrc.any (isOutput graph)) &&
      ggmlAreSameLayout (graph.tensor node) (graph.tensor parent)

def takePlace (galloc : Gallocr) (node parent : TensorId) : Gallocr :=
  let taken := galloc.update node { galloc.hash node with
    bufferId := (galloc.hash parent).bufferId
    offset := (galloc.hash parent).offset }
  taken.update parent { taken.hash parent with allocated := false }

def reuseParent (galloc : Gallocr) (node : TensorId) : List TensorId → Option Gallocr
  | [] => none
  | parent :: rest =>
    if mayReuse graph galloc node parent && decide ((galloc.hash parent).nChildren = 1) &&
        decide ((galloc.hash parent).nViews = 0) then
      match (graph.tensor parent).viewSrc with
      | some viewSrc =>
        if (galloc.hash viewSrc).nViews = 1 ∧ (galloc.hash viewSrc).nChildren = 0 ∧
            (graph.tensor viewSrc).data = (graph.tensor parent).data then
          let taken := takePlace galloc node parent
          some (taken.update viewSrc { taken.hash viewSrc with allocated := false })
        else reuseParent galloc node rest
      | none => some (takePlace galloc node parent)
    else reuseParent galloc node rest

def allocateNode (galloc : Gallocr) (node : TensorId) (bufferId : Nat) : Option Gallocr :=
  if !isAllocated graph galloc node && !ggmlIsView (graph.tensor node) then
    let marked := galloc.update node { galloc.hash node with allocated := true }
    let reused :=
      if ggmlOpCanInplace (graph.tensor node).op then
        reuseParent graph marked node (graph.tensor node).src
      else none
    match reused with
    | some taken => some taken
    | none =>
      let buft := env.buft bufferId
      match dynTallocrAlloc (marked.tallocs buft) (env.allocSize buft (graph.tensor node)) with
      | some (offset, talloc) =>
        let placed := marked.update node { marked.hash node with
          bufferId := bufferId
          offset := offset }
        some { placed with tallocs := Function.update placed.tallocs buft talloc }
      | none => none
  else some galloc

def freeNode (galloc : Gallocr) (node : TensorId) : Option Gallocr :=
  if isOutput graph node then some galloc
  else
    let buft := env.buft (galloc.hash node).bufferId
    match dynTallocrFreeTensor (galloc.tallocs buft) (galloc.hash node).offset
        (env.allocSize buft (graph.tensor node)) with
    | some talloc =>
      let freed := galloc.update node { galloc.hash node with allocated := false }
      some { freed with tallocs := Function.update freed.tallocs buft talloc }
    | none => none

/-- The leafs from index `i` on. -/
def allocateLeafs (leafBufferIds : Option (List Nat)) (galloc : Gallocr) (i : Nat) :
    List TensorId → Option Gallocr
  | [] => some galloc
  | leaf :: rest => do
      let placed ← allocateNode env graph galloc leaf (getNodeBufferId leafBufferIds i)
      allocateLeafs leafBufferIds placed (i + 1) rest

def allocateInput (galloc : Gallocr) (t : TensorId) (bufferId : Nat) : Option Gallocr :=
  if (graph.tensor t).flagInput then allocateNode env graph galloc t bufferId else some galloc

def countSources (galloc : Gallocr) (bufferId : Nat) : List TensorId → Option Gallocr
  | [] => some galloc
  | src :: rest => do
      let counted := galloc.update src { galloc.hash src with
        nChildren := (galloc.hash src).nChildren + 1 }
      let placed ← allocateInput env graph counted src bufferId
      countSources placed bufferId rest

/-- A view of a tensor is counted at the tensor, unless its operation is `GGML_OP_NONE`. -/
def countView (galloc : Gallocr) (node : TensorId) : Gallocr :=
  match (graph.tensor node).viewSrc with
  | some viewSrc =>
    if (graph.tensor node).op ≠ .none then
      galloc.update viewSrc { galloc.hash viewSrc with
        nViews := (galloc.hash viewSrc).nViews + 1 }
    else galloc
  | none => galloc

/-- The nodes from index `i` on are counted. -/
def countNodes (nodeBufferIds : Option (List Nat)) (galloc : Gallocr) (i : Nat) :
    List TensorId → Option Gallocr
  | [] => some galloc
  | node :: rest => do
      let bufferId := getNodeBufferId nodeBufferIds i
      let counted := countView graph galloc node
      let placed ← allocateInput env graph counted node bufferId
      let sources ← countSources env graph placed bufferId (graph.tensor node).src
      countNodes nodeBufferIds sources (i + 1) rest

def allocateParents (galloc : Gallocr) (bufferId : Nat) : List TensorId → Option Gallocr
  | [] => some galloc
  | parent :: rest => do
      let placed ← allocateNode env graph galloc parent bufferId
      allocateParents placed bufferId rest

def freeUnused (galloc : Gallocr) (t : TensorId) : Option Gallocr :=
  if (galloc.hash t).nViews = 0 ∧ (galloc.hash t).nChildren = 0 ∧
      (galloc.hash t).allocated = true then
    freeNode env graph galloc t
  else some galloc

def updateParent (galloc : Gallocr) (parent : TensorId) : Option Gallocr :=
  let counted := galloc.update parent { galloc.hash parent with
    nChildren := (galloc.hash parent).nChildren - 1 }
  if (counted.hash parent).nChildren = 0 ∧ (counted.hash parent).nViews = 0 then
    match (graph.tensor parent).viewSrc with
    | some viewSrc =>
      let viewed := counted.update viewSrc { counted.hash viewSrc with
        nViews := (counted.hash viewSrc).nViews - 1 }
      freeUnused env graph viewed viewSrc
    | none =>
      if (counted.hash parent).allocated then freeNode env graph counted parent
      else some counted
  else some counted

def updateParents (galloc : Gallocr) : List TensorId → Option Gallocr
  | [] => some galloc
  | parent :: rest => do
      let updated ← updateParent env graph galloc parent
      updateParents updated rest

def placeNode (galloc : Gallocr) (node : TensorId) (bufferId : Nat) : Option Gallocr := do
  let parents ← allocateParents env graph galloc bufferId (graph.tensor node).src
  allocateNode env graph parents node bufferId

/-- The nodes from index `i` on are placed in the order of execution. -/
def allocateNodes (nodeBufferIds : Option (List Nat)) (galloc : Gallocr) (i : Nat) :
    List TensorId → Option Gallocr
  | [] => some galloc
  | node :: rest => do
      let placed ← placeNode env graph galloc node (getNodeBufferId nodeBufferIds i)
      let updated ← updateParents env graph placed (graph.tensor node).src
      allocateNodes nodeBufferIds updated (i + 1) rest

def clearedHash : TensorId → HashNode := fun _ => ⟨0, 0, 0, 0, false⟩

/-- `ggml_gallocr_alloc_graph_impl` on allocators that `ggml_gallocr_reserve_n` has reset. -/
def allocGraphImpl (nodeBufferIds leafBufferIds : Option (List Nat)) : Option Gallocr := do
  let cleared : Gallocr := ⟨clearedHash, fun buft => dynTallocrReset (env.alignment buft)⟩
  let leafs ← allocateLeafs env graph leafBufferIds cleared 0 graph.leafs
  let counted ← countNodes env graph nodeBufferIds leafs 0 graph.nodes
  allocateNodes env graph nodeBufferIds counted 0 graph.nodes

end Allocating

end LlamaCpp.Alloc
