import LlamaCpp.Sched.Graph

/-!
# Pass 5: cutting the graph into splits

The nodes are read in order.  A node on the backend of the current split joins
it, unless the node asks for a split of its own; a source the split's backend
cannot read is copied there once, listed among the split's inputs and replaced
by its copy in `node->src`.
-/

set_option autoImplicit false

namespace LlamaCpp.Sched

/-- What `node->src` and `hv_tensor_copies` point to: a tensor of the graph or a copy the
scheduler made of it on a backend. -/
inductive TensorRef
  | tensor (t : TensorId)
  | copy (t : TensorId) (backend : BackendId) (c : Nat)
  deriving DecidableEq

structure Split where
  backendId : BackendId
  iStart : Nat
  iEnd : Nat
  inputs : List TensorId
  deriving DecidableEq

inductive SplitError
  | tooManySplits | tooManyInputs | tooManyGraphInputs
  deriving DecidableEq

structure SplitState where
  finished : List Split
  split : Split
  copies : TensorId → BackendId → Nat → Option TensorRef
  srcs : TensorId → Fin ggmlMaxSrc → Option TensorRef
  graphInputs : List TensorId
  hasReduce : Bool

variable (sched : BackendSched) (graph : CGraph) (backendIds : TensorId → BackendId)

def isForeign (src : TensorId) (backend : BackendId) : Bool :=
  backendIds src ≠ backend && !bufferSupported sched graph (fun t => some (backendIds t)) src backend

def isWeight (src : TensorId) : Bool :=
  match (graph.tensor src).buffer with
  | some buffer => buffer.usage = .weights
  | none => false

def forcesSplit (node : TensorId) : Bool :=
  let t := graph.tensor node
  t.op = .add && t.opParams ⟨0, by decide⟩ = 0xff || t.op = .reduce || t.op = .fakeCpy ||
    t.opParams ⟨maxOpParams - 1, by decide⟩ = 0xff

def needNewSplit (st : SplitState) (node : TensorId) : Bool :=
  forcesSplit graph node ||
    (backendIds node = st.split.backendId && 0 < st.split.inputs.length &&
      (sources graph node).any fun (_, src) =>
        isWeight graph src && backendIds src ≠ st.split.backendId ||
        st.split.inputs.length = schedMaxSplitInputs &&
          (isForeign sched graph backendIds src st.split.backendId &&
            (st.copies src st.split.backendId 0).isNone))

def startsNewSplit (st : SplitState) (node : TensorId) : Bool :=
  backendIds node ≠ st.split.backendId || needNewSplit sched graph backendIds st node

/-- Closes the current split before node `i` and opens one on the node's backend. -/
def newSplit (st : SplitState) (i : Nat) (node : TensorId) : Except SplitError SplitState :=
  if st.finished.length + 1 < schedMaxSplits then
    .ok { st with
      finished := st.finished ++ [{ st.split with iEnd := i }]
      split := ⟨backendIds node, i, 0, []⟩ }
  else .error .tooManySplits

/-- An input of the graph has one tensor for each of the graphs in flight, of which it is the
current one itself. -/
def listGraphInput (st : SplitState) (src : TensorId) : SplitState :=
  { st with
    copies := fun t b c =>
      if t = src ∧ b = backendIds src ∧ c < sched.nCopies then
        some (if c = sched.curCopy then .tensor src else .copy src b c)
      else st.copies t b c
    graphInputs := st.graphInputs ++ [src] }

def addGraphInput (st : SplitState) (src : TensorId) : Except SplitError SplitState :=
  if (graph.tensor src).isInput && 1 < sched.nCopies && (st.copies src (backendIds src) 0).isNone then
    if st.graphInputs.length < schedMaxSplitInputs then .ok (listGraphInput sched backendIds st src)
    else .error .tooManyGraphInputs
  else .ok st

def setCopy (st : SplitState) (src : TensorId) (ref : Option TensorRef) : SplitState :=
  { st with copies := fun t b c =>
      if t = src ∧ b = st.split.backendId ∧ c = 0 then ref else st.copies t b c }

def listInput (st : SplitState) (src : TensorId) : SplitState :=
  { st with
    copies := fun t b c =>
      if t = src ∧ b = st.split.backendId ∧ c < sched.nCopies then some (.copy src b c)
      else st.copies t b c
    split := { st.split with inputs := st.split.inputs ++ [src] } }

/-- The first copy of a source on the current backend.  A REDUCE reads the tensor itself and
a FAKE_CPY the REDUCE's own source, and neither lists an input. -/
def makeCopy (st : SplitState) (node : TensorId) (j : Fin ggmlMaxSrc) (src : TensorId) :
    Except SplitError SplitState :=
  if (graph.tensor node).op = .reduce then .ok (setCopy st src (some (.tensor src)))
  else if (graph.tensor node).op = .fakeCpy ∧ (graph.tensor src).op = .reduce then
    .ok (setCopy st src (st.srcs src j))
  else if st.split.inputs.length < schedMaxSplitInputs then .ok (listInput sched st src)
  else .error .tooManyInputs

/-- `node->src[j] = tensor_id_copy(src_id, cur_backend_id, sched->cur_copy)` -/
def redirect (st : SplitState) (node : TensorId) (j : Fin ggmlMaxSrc) (src : TensorId) :
    SplitState :=
  { st with srcs := fun t k =>
      if t = node ∧ k = j then st.copies src st.split.backendId sched.curCopy else st.srcs t k }

def copySource (st : SplitState) (node : TensorId) (j : Fin ggmlMaxSrc) (src : TensorId) :
    Except SplitError SplitState :=
  if isForeign sched graph backendIds src st.split.backendId then do
    let st ← if (st.copies src st.split.backendId 0).isNone then makeCopy sched graph st node j src
      else pure st
    pure (redirect sched st node j src)
  else pure st

def splitSource (node : TensorId) (st : SplitState) (source : Fin ggmlMaxSrc × TensorId) :
    Except SplitError SplitState := do
  let st ← addGraphInput sched graph backendIds st source.2
  copySource sched graph backendIds st node source.1 source.2

/-- The split that node `i` goes to. -/
def openSplit (st : SplitState) (node : TensorId) (i : Nat) : Except SplitError SplitState :=
  if startsNewSplit sched graph backendIds st node then newSplit backendIds st i node else .ok st

def noteReduce (st : SplitState) (node : TensorId) : SplitState :=
  { st with hasReduce := st.hasReduce || (graph.tensor node).op = .reduce }

def splitNode (st : SplitState) (entry : TensorId × Nat) : Except SplitError SplitState :=
  if isViewOp (graph.tensor entry.1).op then .ok st
  else do
    let st ← openSplit sched graph backendIds (noteReduce graph st entry.1) entry.1 entry.2
    (sources graph entry.1).foldlM (splitSource sched graph backendIds entry.1) st

/-- The state before the first node of a scheduler that was reset.  The first split is on the backend of the first node
that is no view; `oldBackend` is what `splits[0]` held before. -/
def splitStart (oldBackend : BackendId) : SplitState where
  finished := []
  split :=
    ⟨((graph.nodes.find? fun node => !isViewOp (graph.tensor node).op).map backendIds).getD oldBackend,
      0, 0, []⟩
  copies := fun _ _ _ => none
  srcs := fun t j => ((graph.tensor t).srcs j).map .tensor
  graphInputs := []
  hasReduce := false

def splitNodes (oldBackend : BackendId) (nodes : List TensorId) : Except SplitError SplitState :=
  nodes.zipIdx.foldlM (splitNode sched graph backendIds) (splitStart graph backendIds oldBackend)

/-- `ggml_backend_sched_split_graph` from the point where every tensor has its backend. -/
def splitGraph (oldBackend : BackendId) : Except SplitError SplitState := do
  let st ← splitNodes sched graph backendIds oldBackend graph.nodes
  pure { st with split := { st.split with iEnd := graph.nodes.length } }

def SplitState.splits (st : SplitState) : List Split := st.finished ++ [st.split]

def okOr (fallback : SplitState) : Except SplitError SplitState → SplitState
  | .ok st => st
  | .error _ => fallback

theorem okOr_eq {fallback : SplitState} {result : Except SplitError SplitState}
    (ok : result.isOk = true) : result = .ok (okOr fallback result) :=
  match result, ok with
  | .ok _, _ => rfl

end LlamaCpp.Sched
