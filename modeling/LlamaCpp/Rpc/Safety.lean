import LlamaCpp.Rpc.Server

/-!
# What the server touches

A tensor with a live buffer passes the check of its size, which is made with sums that wrap around;
a tensor without one passes unchecked.  So the server stays inside its buffers as long as no record
names another buffer or has a size beyond 64 bits, no graph has a null node, and a stored graph is
computed again only while its buffers are there.
-/

set_option autoImplicit false

namespace LlamaCpp.Rpc

open LlamaCpp.Lib List Option Bool
open LlamaCpp.Ggml

section

variable (types : TypeTraits)

def Access.Safe (buffers : Buffers) : Access → Prop
  | .buffer address => (buffers address).isSome
  | .tensor handed => handed.data = 0 ∨ ∃ owner, buffers handed.buffer = some owner ∧
      Inside owner handed.data (exactBytes types handed.type handed.ne handed.nb)
  | .nullNode => False
  | .memory address size => ∃ place owner, buffers place = some owner ∧
      Inside owner address size.toNat

def RpcTensor.Named (buffers : Buffers) (record : RpcTensor) : Prop :=
  record.buffer ≠ 0 ∧ (buffers record.buffer).isSome

def RpcTensor.Bounded (record : RpcTensor) : Prop := NoWrap types record.type record.ne record.nb

def RpcTensor.Placed (buffers : Buffers) (record : RpcTensor) : Prop :=
  record.type < typeCount → record.Named buffers ∧ record.Bounded types

inductive GraphMessage.Reached (message : GraphMessage) : BitVec 64 → Prop
  | node {id : BitVec 64} (member : id ∈ message.nodes) : message.Reached id
  | link {id : BitVec 64} {record : RpcTensor} (reached : message.Reached id)
      (found : message.tensorPtrs id = some record) (link : Link) (some_ : record.link link ≠ 0) :
      message.Reached (record.link link)

/-- The tensor passes the check of `deserialize_tensor` with the buffers that are live now. -/
def StillPlaced (buffers : Buffers) (tensor : Tensor Nat) : Prop :=
  ∃ buffer, buffers tensor.buffer = some buffer ∧
    inBuffer buffer tensor.data (nbytes types tensor.type tensor.ne tensor.nb) = true

def Meets (server : RpcServer) (request : Request) : Prop :=
  match request.cmd with
  | .setTensor => rpcTensorLayout.size + 8 ≤ request.payload.length →
      (rpcTensorLayout.read request.payload).Placed types server.buffers
  | .getTensor => request.payload.length = tensorRegionLayout.size →
      (tensorRegionLayout.read request.payload).1.Placed types server.buffers
  | .setTensorHash => request.payload.length = tensorRegionLayout.size →
      (getCachedFile server (tensorRegionLayout.read request.payload).2.2).isSome →
        (tensorRegionLayout.read request.payload).1.Named server.buffers →
          (tensorRegionLayout.read request.payload).1.Bounded types
  | .initTensor => request.payload.length = rpcTensorLayout.size →
      (rpcTensorLayout.read request.payload).Named server.buffers →
        (rpcTensorLayout.read request.payload).Bounded types
  | .copyTensor => request.payload.length = 2 * rpcTensorLayout.size →
      let records := (Layout.pair rpcTensorLayout rpcTensorLayout).read request.payload
      records.2.Placed types server.buffers ∧
        (records.1.data ≠ 0 → records.1.Placed types server.buffers) ∧
        records.2.data.toNat + (nbytes types records.1.type records.1.ne records.1.nb).toNat < 2 ^ 64
  | .graphCompute => ∀ message, readGraph request.payload = some message →
      message.device.toNat < server.storedGraphs.length →
        (∀ id ∈ message.nodes, id ≠ 0) ∧
        ∀ id record, message.Reached id → message.tensorPtrs id = some record →
          record.data ≠ 0 → record.Placed types server.buffers
  | .graphRecompute => ∀ graph, request.payload.length = 4 →
      server.storedGraphs[(Layout.u32.read request.payload).toNat]? = some (some graph) →
        ∀ tensor ∈ graph.tensors, tensor.data ≠ 0 → StillPlaced types server.buffers tensor
  | _ => True

variable {types} {buffers : Buffers}

theorem inside_of_inBuffer {buffer : Buffer} {data : BitVec 64} {type : BitVec 32}
    {ne nb : Fin 4 → BitVec 64} (bounded : NoWrap types type ne nb)
    (passed : inBuffer buffer data (nbytes types type ne nb) = true) :
    Inside buffer data (exactBytes types type ne nb) := by
  simp only [inBuffer, and_eq_true, decide_eq_true_eq, BitVec.le_def,
    toNat_base_add_size] at passed
  obtain ⟨⟨noOverflow, start⟩, last⟩ := passed
  rw [BitVec.toNat_add] at noOverflow last
  have size := toNat_nbytes types bounded
  have sum : (data.toNat + (nbytes types type ne nb).toNat) % 2 ^ 64 =
      data.toNat + (nbytes types type ne nb).toNat := by
    omega
  rw [sum, size] at last
  exact ⟨start, last⟩

theorem inside_of_inRegion {buffer : Buffer} {data offset size : BitVec 64}
    (passed : inRegion buffer data offset size = true) :
    Inside buffer (data + offset) size.toNat := by
  have rest : buffer.base + buffer.size - data - offset =
      buffer.base + buffer.size - (data + offset) := by
    rw [BitVec.sub_sub]
  simp only [inRegion, rest, not_eq_true', or_eq_false_iff, decide_eq_false_iff_not,
    BitVec.not_lt, BitVec.not_le] at passed
  obtain ⟨⟨start, inside⟩, fits⟩ := passed
  have room := toNat_base_add_size buffer
  rw [BitVec.le_def] at fits
  rw [BitVec.lt_def] at inside
  rw [BitVec.toNat_sub_of_le (by rw [BitVec.le_def]; omega)] at fits
  exact ⟨start, by omega⟩

structure Deserialized (types : TypeTraits) (buffers : Buffers) (record : RpcTensor)
    (tensor : Tensor Nat) : Prop where
  known : record.type < typeCount
  fields : tensor = record.toTensor tensor.buffer
  unnamed : ¬ record.Named buffers → tensor.buffer = 0
  named : record.Named buffers → tensor.buffer = record.buffer ∧ StillPlaced types buffers tensor

variable {record : RpcTensor} {tensor : Tensor Nat} {next : RpcServer}

theorem deserializeTensor_some (made : deserializeTensor types buffers record = .ok (some tensor)) :
    Deserialized types buffers record tensor := by
  unfold deserializeTensor at made
  split at made
  · cases made
  rename_i below
  have known : record.type < typeCount := BitVec.not_le.mp below
  split at made
  · cases made
  split at made
  · rename_i missing
    cases made
    refine ⟨known, rfl, fun _ => rfl, ?_⟩
    rintro ⟨-, live⟩
    rw [missing] at live
    contradiction
  · rename_i buffer live
    split at made
    · rename_i zero
      cases made
      exact ⟨known, rfl, fun _ => rfl, fun named => absurd zero named.1⟩
    · rename_i some_
      split at made
      · rename_i passed
        cases made
        have named : record.Named buffers := ⟨some_, by rw [live]; rfl⟩
        exact ⟨known, rfl, fun unnamed => absurd named unnamed,
          fun _ => ⟨rfl, buffer, live, passed⟩⟩
      · cases made

theorem Deserialized.data (made : Deserialized types buffers record tensor) :
    tensor.data = record.data := by
  rw [made.fields]; rfl

theorem Deserialized.sizes (made : Deserialized types buffers record tensor) :
    tensor.type = record.type ∧ tensor.ne = record.ne ∧ tensor.nb = record.nb := by
  rw [made.fields]; exact ⟨rfl, rfl, rfl⟩

theorem StillPlaced.safe (placed : StillPlaced types buffers tensor)
    (bounded : NoWrap types tensor.type tensor.ne tensor.nb) :
    (Access.tensor tensor).Safe types buffers := by
  obtain ⟨buffer, live, passed⟩ := placed
  exact .inr ⟨buffer, live, inside_of_inBuffer bounded passed⟩

theorem Deserialized.bounded (made : Deserialized types buffers record tensor)
    (bounded : record.Bounded types) : NoWrap types tensor.type tensor.ne tensor.nb := by
  obtain ⟨type, ne, nb⟩ := made.sizes
  rw [type, ne, nb]
  exact bounded

/-- A stored graph has no null node, and the sizes of its tensors are bounded. -/
structure Stored (types : TypeTraits) (graph : Graph) : Prop where
  nodes : ∀ node ∈ graph.nodes, node.isSome
  tensors : ∀ tensor ∈ graph.tensors, tensor.data ≠ 0 →
    NoWrap types tensor.type tensor.ne tensor.nb

def Inv (types : TypeTraits) (server : RpcServer) : Prop :=
  ∀ graph, some graph ∈ server.storedGraphs → Stored types graph

/-- Everything a command touches is safe, and the server after it keeps the invariant. -/
structure Fine (types : TypeTraits) (buffers : Buffers) (served : Served) : Prop where
  safe : ∀ access ∈ served.accesses, access.Safe types buffers
  inv : ∀ next, served.outcome = .answered next → Inv types next

theorem fine_rejected : Fine types buffers { outcome := .rejected } where
  safe _ member := absurd member not_mem_nil
  inv _ impossible := by cases impossible

theorem fine_aborted (abort : Abort) : Fine types buffers { outcome := .aborted abort } where
  safe _ member := absurd member not_mem_nil
  inv _ impossible := by cases impossible

theorem fine_answered (inv : Inv types next) :
    Fine types buffers { outcome := .answered next } where
  safe _ member := absurd member not_mem_nil
  inv := by
    rintro _ ⟨⟩
    exact inv

theorem Fine.cons {served : Served} (fine : Fine types buffers served) {access : Access}
    (safe : access.Safe types buffers) :
    Fine types buffers { served with accesses := access :: served.accesses } where
  safe := by
    intro other member
    rcases mem_cons.mp member with rfl | later
    · exact safe
    · exact fine.safe other later
  inv := fine.inv

theorem fine_recvMsg {α : Type} {layout : Layout α} {payload : Bytes} {handler : α → Served}
    (fine : payload.length = layout.size → Fine types buffers (handler (layout.read payload))) :
    Fine types buffers (recvMsg layout payload handler) := by
  unfold recvMsg
  split
  · rename_i whole
    exact fine whole
  · exact fine_rejected

variable {server : RpcServer}

theorem fine_withBuffer {address : BitVec 64} {handler : Buffer → Served}
    (fine : ∀ buffer, server.buffers address = some buffer →
      Fine types server.buffers (handler buffer)) :
    Fine types server.buffers (withBuffer server address handler) := by
  unfold withBuffer
  split
  · rename_i buffer live
    exact (fine buffer live).cons (by rw [Access.Safe, live]; rfl)
  · exact fine_aborted _

theorem fine_useBuffer {address : BitVec 64} {handler : Buffer → Served}
    (live : (server.buffers address).isSome)
    (fine : ∀ buffer, server.buffers address = some buffer →
      Fine types server.buffers (handler buffer)) :
    Fine types server.buffers (useBuffer server address handler) := by
  unfold useBuffer
  obtain ⟨buffer, here⟩ := isSome_iff_exists.mp live
  rw [here]
  exact (fine buffer here).cons (by rw [Access.Safe, here]; rfl)

theorem fine_withTensor {unknown : Outcome} {handler : Tensor Nat → Served}
    (fails : Fine types server.buffers { outcome := unknown })
    (fine : ∀ tensor, Deserialized types server.buffers record tensor → Fine types server.buffers (handler tensor)) :
    Fine types server.buffers (withTensor types server record unknown handler) := by
  unfold withTensor
  split
  · exact fine_aborted _
  · exact fails
  · rename_i tensor made
    exact fine tensor (deserializeTensor_some made)

theorem StillPlaced.isSome (placed : StillPlaced types buffers tensor) :
    (buffers tensor.buffer).isSome := by
  obtain ⟨buffer, live, -⟩ := placed
  rw [live]
  rfl

theorem fine_accessRegion (placed : StillPlaced types server.buffers tensor)
    (bounded : NoWrap types tensor.type tensor.ne tensor.nb) (inv : Inv types next)
    (offset size : BitVec 64) :
    Fine types server.buffers (accessRegion types server tensor offset size next) := by
  refine fine_useBuffer placed.isSome fun buffer live => ?_
  split
  · rename_i inside
    unfold backendTensorAccess
    split
    · exact fine_aborted _
    split
    · exact fine_aborted _
    split
    · exact fine_answered inv
    · have touched : (Access.memory (tensor.data + offset) size).Safe types server.buffers :=
        ⟨_, buffer, live, inside_of_inRegion inside⟩
      exact ((fine_answered inv).cons touched).cons (placed.safe bounded)
  · exact fine_rejected

theorem fine_withRegion {unknown : Outcome}
    (fails : Fine types server.buffers { outcome := unknown })
    (placed : record.Placed types server.buffers) (inv : Inv types next) (offset size : BitVec 64) :
    Fine types server.buffers (withTensor types server record unknown fun tensor =>
      accessRegion types server tensor offset size next) := by
  refine fine_withTensor fails fun tensor made => ?_
  obtain ⟨named, bounded⟩ := placed made.known
  exact fine_accessRegion (made.named named).2 (made.bounded bounded) inv offset size

theorem inv_saveToCache (inv : Inv types server) (data : Bytes) :
    Inv types (server.saveToCache data) := by
  unfold RpcServer.saveToCache
  split <;> exact inv

theorem fine_setTensorHash (inv : Inv types server) {request : RpcTensor × BitVec 64 × BitVec 64}
    (meets : (getCachedFile server request.2.2).isSome → request.1.Named server.buffers →
      request.1.Bounded types) :
    Fine types server.buffers (setTensorHash types server request) := by
  unfold setTensorHash
  split
  · exact fine_answered inv
  · rename_i cachedFile found
    refine fine_withTensor fine_rejected fun tensor made => ?_
    split
    · exact fine_rejected
    · rename_i some_
      have named : request.1.Named server.buffers := by
        by_contra unnamed
        exact some_ (made.unnamed unnamed)
      have bounded := meets (by rw [found]; rfl) named
      exact fine_accessRegion (made.named named).2 (made.bounded bounded) inv _ _

theorem fine_initTensor (inv : Inv types server)
    (meets : record.Named server.buffers → record.Bounded types) :
    Fine types server.buffers (initTensor types server record) := by
  refine fine_withTensor fine_rejected fun tensor made => ?_
  split
  · exact fine_answered inv
  · rename_i some_
    have named : record.Named server.buffers := by
      by_contra unnamed
      exact some_ (made.unnamed unnamed)
    have placed := (made.named named).2
    have safe := placed.safe (made.bounded (meets named))
    refine fine_useBuffer placed.isSome fun buffer live => ?_
    split
    · exact fine_answered inv
    · rename_i setsExtra has
      cases setsExtra with
      | true => exact fine_rejected.cons safe
      | false => exact (fine_answered inv).cons safe

theorem fine_copyTensor (inv : Inv types server) {request : RpcTensor × RpcTensor}
    (dstPlaced : request.2.Placed types server.buffers)
    (srcPlaced : request.1.data ≠ 0 → request.1.Placed types server.buffers)
    (noWrap : request.2.data.toNat +
      (nbytes types request.1.type request.1.ne request.1.nb).toNat < 2 ^ 64) :
    Fine types server.buffers (copyTensor types server request) := by
  refine fine_withTensor (fine_aborted _) fun src srcMade => ?_
  refine fine_withTensor (fine_aborted _) fun dst dstMade => ?_
  obtain ⟨dstNamed, dstBounded⟩ := dstPlaced dstMade.known
  have placed := (dstMade.named dstNamed).2
  refine fine_useBuffer placed.isSome fun buffer live => ?_
  split
  · exact fine_rejected
  rename_i inside
  split
  · have srcSafe : (Access.tensor src).Safe types server.buffers := by
      by_cases zero : src.data = 0
      · exact .inl zero
      · rw [srcMade.data] at zero
        obtain ⟨named, bounded⟩ := srcPlaced zero srcMade.known
        exact (srcMade.named named).2.safe (srcMade.bounded bounded)
    obtain ⟨type, ne, nb⟩ := srcMade.sizes
    have written : (Access.memory dst.data (nbytes types src.type src.ne src.nb)).Safe types
        server.buffers := by
      refine ⟨_, buffer, live, ?_⟩
      obtain ⟨owner, same, passed⟩ := placed
      rw [live] at same
      cases same
      simp only [inBuffer, and_eq_true, decide_eq_true_eq] at passed
      rw [BitVec.not_lt, BitVec.le_def, toNat_base_add_size, BitVec.toNat_add, Nat.mod_eq_of_lt (by
        rw [type, ne, nb, dstMade.data]
        exact noWrap)] at inside
      exact ⟨passed.1.2, inside⟩
    exact (((fine_answered inv).cons written).cons
      (placed.safe (dstMade.bounded dstBounded))).cons srcSafe
  · exact fine_answered inv

theorem Graph.safe {graph : Graph} (nodes : ∀ node ∈ graph.nodes, node.isSome)
    (tensors : ∀ tensor ∈ graph.tensors, (Access.tensor tensor).Safe types buffers) :
    ∀ access ∈ graph.accesses, access.Safe types buffers := by
  intro access member
  rcases mem_append.mp member with null | handed
  · obtain ⟨node, missing, -⟩ := mem_map.mp null
    obtain ⟨inGraph, isNone⟩ := mem_filter.mp missing
    have isSome := nodes node inGraph
    rw [isNone_iff_eq_none.mp isNone] at isSome
    contradiction
  · obtain ⟨tensor, inGraph, rfl⟩ := mem_map.mp handed
    exact tensors tensor inGraph

def Handed (types : TypeTraits) (buffers : Buffers) (tensor : Tensor Nat) : Prop :=
  (Access.tensor tensor).Safe types buffers ∧
    (tensor.data ≠ 0 → NoWrap types tensor.type tensor.ne tensor.nb)

theorem handed_of_deserialized (made : Deserialized types buffers record tensor)
    (placed : record.data ≠ 0 → record.Placed types buffers) : Handed types buffers tensor := by
  by_cases zero : tensor.data = 0
  · exact ⟨.inl zero, fun some_ => absurd zero some_⟩
  · have zero' := zero
    rw [made.data] at zero'
    obtain ⟨named, bounded⟩ := placed zero' made.known
    have fits := made.bounded bounded
    exact ⟨(made.named named).2.safe fits, fun _ => fits⟩

theorem keptBy_handed {message : GraphMessage}
    (placed : ∀ id record, message.Reached id → message.tensorPtrs id = some record →
      record.data ≠ 0 → record.Placed types buffers) :
    KeptBy types buffers message.tensorPtrs message.Reached (Handed types buffers) where
  made id record tensor reached found deserialized :=
    handed_of_deserialized (deserializeTensor_some deserialized) (placed id record reached found)
  setLink tensor link target handed := by
    cases link <;> exact handed
  setViewOffs tensor viewOffs handed := handed

theorem build_handed {message : GraphMessage} (hasIds : ∀ id ∈ message.nodes, id ≠ 0)
    (placed : ∀ id record, message.Reached id → message.tensorPtrs id = some record →
      record.data ≠ 0 → record.Placed types buffers) :
    Ensures (message.build types buffers) fun made => ∀ graph, made = some graph →
      (∀ node ∈ graph.nodes, node.isSome) ∧
        ∀ tensor ∈ graph.tensors, Handed types buffers tensor := by
  have start : ({} : Builder).Forall (Handed types buffers) :=
    fun tensor member => absurd member not_mem_nil
  refine (createNodes_forall (keptBy_handed placed)
    (fun id record link reached found some_ => reached.link found link some_)
    (message.tensors.length + 1) (fun id member => .node member) start).bind ?_
  intro made built
  refine ensures_ok ?_
  intro graph same
  obtain ⟨parts, some_, rfl⟩ := map_eq_some_iff.mp same
  obtain ⟨tensors, nodes⟩ := built parts some_
  exact ⟨nodes hasIds, tensors⟩

section

variable (inv : Inv types server)
include inv

theorem fine_graphCompute {input : Bytes}
    (meets : ∀ message, readGraph input = some message →
      message.device.toNat < server.storedGraphs.length →
        (∀ id ∈ message.nodes, id ≠ 0) ∧
        ∀ id record, message.Reached id → message.tensorPtrs id = some record →
          record.data ≠ 0 → record.Placed types server.buffers) :
    Fine types server.buffers (graphCompute types server input) := by
  unfold graphCompute
  split
  · exact fine_rejected
  rename_i message read
  split
  · exact fine_rejected
  rename_i device
  split
  · exact fine_aborted _
  · exact fine_rejected
  rename_i graph built
  obtain ⟨hasIds, placed⟩ := meets message read (Nat.lt_of_not_le device)
  obtain ⟨nodes, tensors⟩ := build_handed hasIds placed _ built graph rfl
  refine ⟨Graph.safe nodes fun tensor member => (tensors tensor member).1, ?_⟩
  rintro next ⟨⟩ other member
  rcases mem_or_eq_of_mem_set member with old | new
  · exact inv other old
  · cases new
    exact ⟨nodes, fun tensor member => (tensors tensor member).2⟩

theorem fine_graphRecompute {device : BitVec 32}
    (meets : ∀ graph, server.storedGraphs[device.toNat]? = some (some graph) →
      ∀ tensor ∈ graph.tensors, tensor.data ≠ 0 → StillPlaced types server.buffers tensor) :
    Fine types server.buffers (graphRecompute server device) := by
  unfold graphRecompute
  split
  · rename_i graph stored
    have sound := inv graph (mem_of_getElem? stored)
    refine ⟨Graph.safe sound.nodes fun tensor member => ?_, ?_⟩
    · by_cases zero : tensor.data = 0
      · exact .inl zero
      · exact (meets graph stored tensor member zero).safe (sound.tensors tensor member zero)
    · rintro next ⟨⟩
      exact inv
  · exact fine_rejected

theorem fine_askBackend (device : BitVec 32) :
    Fine types server.buffers (askBackend server device) := by
  unfold askBackend
  split
  · exact fine_answered inv
  · exact fine_rejected

theorem fine_allocBuffer (allocated : Option Allocation)
    (request : BitVec 32 × BitVec 64) :
    Fine types server.buffers (allocBuffer server allocated request) := by
  unfold allocBuffer
  split
  · split <;> exact fine_answered inv
  · exact fine_rejected

theorem fine_getAllocSize (request : BitVec 32 × RpcTensor) :
    Fine types server.buffers (getAllocSize types server request) := by
  unfold getAllocSize
  split
  · refine fine_withTensor (fine_aborted _) fun tensor made => ?_
    split
    · exact fine_answered inv
    · rename_i some_
      have named : request.2.Named server.buffers := by
        by_contra unnamed
        exact some_ (made.unnamed unnamed)
      exact fine_useBuffer (made.named named).2.isSome fun _ _ => fine_answered inv
  · exact fine_rejected

end

theorem Fine.ignoreResult {served : Served} (fine : Fine types buffers served)
    (inv : Inv types server) : Fine types buffers (served.ignoreResult server) := by
  unfold Served.ignoreResult
  split
  · refine ⟨fine.safe, ?_⟩
    rintro next ⟨⟩
    exact inv
  · exact fine

theorem fine_serve (inv : Inv types server) {request : Request}
    (meets : Meets types server request) :
    Fine types server.buffers (serve types server request) := by
  unfold serve
  unfold Meets at meets
  cases cmd : request.cmd <;> rw [cmd] at meets <;> dsimp only at ⊢
  case allocBuffer => exact fine_recvMsg fun _ => fine_allocBuffer inv _ _
  case getAlignment => exact fine_recvMsg fun _ => fine_askBackend inv _
  case getMaxSize => exact fine_recvMsg fun _ => fine_askBackend inv _
  case getDeviceMemory => exact fine_recvMsg fun _ => fine_askBackend inv _
  case bufferGetBase =>
    exact fine_recvMsg fun _ => fine_withBuffer fun _ _ => fine_answered inv
  case freeBuffer =>
    exact fine_recvMsg fun _ => fine_withBuffer fun _ _ => fine_answered inv
  case bufferClear =>
    refine fine_recvMsg fun _ => fine_withBuffer fun buffer live => ?_
    exact (fine_answered inv).cons ⟨_, buffer, live, le_refl _, le_refl _⟩
  case setTensor =>
    unfold setTensor
    split
    · exact fine_rejected
    · rename_i long
      exact fine_withRegion (fine_aborted _) (meets (Nat.le_of_not_lt long))
        (inv_saveToCache inv _) _ _
  case setTensorHash =>
    exact fine_recvMsg fun whole => fine_setTensorHash inv (meets whole)
  case getTensor =>
    exact fine_recvMsg fun whole => fine_withRegion (fine_aborted _) (meets whole) inv _ _
  case copyTensor =>
    refine fine_recvMsg fun whole => ?_
    obtain ⟨dst, src, noWrap⟩ := meets (whole.trans (Nat.two_mul _).symm)
    exact fine_copyTensor inv dst src noWrap
  case graphCompute => exact fine_graphCompute inv meets
  case initTensor => exact fine_recvMsg fun whole => fine_initTensor inv (meets whole)
  case getAllocSize =>
    exact fine_recvMsg fun _ => (fine_getAllocSize inv _).ignoreResult inv
  case hello => exact fine_rejected
  case deviceCount =>
    split
    · exact fine_answered inv
    · exact fine_rejected
  case graphRecompute =>
    exact fine_recvMsg fun whole =>
      fine_graphRecompute inv fun graph stored => meets graph whole stored

end

def RunMeets (types : TypeTraits) : RpcServer → List Request → Prop
  | _, [] => True
  | server, request :: rest =>
    Meets types server request ∧
      ∀ next, (serve types server request).outcome = .answered next → RunMeets types next rest

def RunSafe (types : TypeTraits) : RpcServer → List Request → Prop
  | _, [] => True
  | server, request :: rest =>
    (∀ access ∈ (serve types server request).accesses, access.Safe types server.buffers) ∧
      ∀ next, (serve types server request).outcome = .answered next → RunSafe types next rest

theorem Inv.runSafe {types : TypeTraits} {server : RpcServer} {requests : List Request}
    (inv : Inv types server) (meets : RunMeets types server requests) :
    RunSafe types server requests := by
  induction requests generalizing server with
  | nil => trivial
  | cons request rest ih =>
    have fine := fine_serve inv meets.1
    exact ⟨fine.safe, fun next answered => ih (fine.inv next answered) (meets.2 next answered)⟩

theorem inv_newServer (types : TypeTraits) (devices : Nat)
    (cacheDir : Option (BitVec 64 → Option Bytes)) : Inv types (newServer devices cacheDir) := by
  intro graph member
  cases (mem_replicate.mp member).2

def setTensorPayload (record : RpcTensor) (offset : BitVec 64) (data : Bytes) : Bytes :=
  rpcTensorLayout.write record ++ (Layout.u64.write offset ++ data)

theorem read_setTensorPayload (record : RpcTensor) (offset : BitVec 64) (data : Bytes) :
    rpcTensorLayout.read (setTensorPayload record offset data) = record :=
  rpcTensorLayout.read_write record _

def floatTypes : TypeTraits where
  blckSize type := if type = 0 then 1 else 0
  typeSize type := if type = 0 then 4 else 0
  rowMetaSize _ := 0

def floats (buffer data : BitVec 64) : RpcTensor :=
  { id := 1, type := 0, buffer, ne := fun i => if i = 0 then 4 else 1
    nb := fun i => if i = 0 then 4 else 16, op := 0, opParams := fun _ => 0, flags := 0
    src := fun _ => 0, viewSrc := 0, viewOffs := 0, data, name := fun _ => 0, padding := fun _ => 0 }

theorem bounded_floats (buffer data : BitVec 64) : (floats buffer data).Bounded floatTypes := by
  intro _
  refine ⟨?_, fun impossible => absurd rfl impossible⟩
  change exactSpan floatTypes 0 (fun i => if i = 0 then 4 else 1)
    (fun i => if i = 0 then 4 else 16) < 2 ^ 64
  decide

def floatBuffer : Allocation where
  address := 0x1000
  buffer := { base := 0x2000, size := 64, base_ne := by decide, inMemory := by decide }
  address_ne := by decide

def writingRun : List Request :=
  [{ cmd := .allocBuffer, payload := (Layout.pair .u32 .u64).write (0, 64)
     allocated := some floatBuffer },
    { cmd := .setTensor, payload := setTensorPayload (floats 0x1000 0x2000) 0 (List.replicate 16 0) }]

def noBufferRequest : Request :=
  { cmd := .setTensor, payload := setTensorPayload (floats 0 0x2000) 0 [0] }

def nullNodeRequest : Request :=
  { cmd := .graphCompute
    payload := Layout.u32.write 0 ++ Layout.u32.write 1 ++ Layout.u64.write 0 ++ Layout.u32.write 0 }

theorem accesses_noBuffer :
    (serve floatTypes (newServer 1 none) noBufferRequest).accesses = [.buffer 0] := by
  decide +kernel

end LlamaCpp.Rpc
