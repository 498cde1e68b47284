import LlamaCpp.Rpc.GraphBuild

/-!
# The server

Each command of a client is answered, refused, or ends the process.  With it go the places where the
server uses a buffer and what it hands to a backend; the contents of the memory and the answers are
left out.
-/

set_option autoImplicit false

namespace LlamaCpp.Rpc

open LlamaCpp.Lib
open LlamaCpp.Ggml

inductive Access
  /-- A buffer object is used. -/
  | buffer (address : BitVec 64)
  /-- A tensor is handed to a backend. -/
  | tensor (tensor : Tensor Nat)
  /-- A node of a graph that is a null pointer is handed to a backend. -/
  | nullNode
  /-- A backend reads or writes a region. -/
  | memory (address size : BitVec 64)
deriving DecidableEq

/-- The members of `rpc_server`, with the files of the cache by their hash. -/
structure RpcServer where
  buffers : Buffers
  storedGraphs : List (Option Graph)
  cacheDir : Option (BitVec 64 → Option Bytes)

inductive Outcome
  /-- The handler returns `true`. -/
  | answered (server : RpcServer)
  /-- The handler returns `false`, and the connection is closed. -/
  | rejected
  | aborted (abort : Abort)

structure Served where
  accesses : List Access := []
  outcome : Outcome

/-- An answer is sent even if the handler returns `false`. -/
def Served.ignoreResult (served : Served) (server : RpcServer) : Served :=
  match served.outcome with
  | .rejected => { served with outcome := .answered server }
  | _ => served

/-- What a backend gives out for `alloc_buffer`: a new object, never at the null address. -/
structure Allocation where
  address : BitVec 64
  buffer : Buffer
  address_ne : address ≠ 0

def recvMsg {α : Type} (layout : Layout α) (payload : Bytes) (handler : α → Served) : Served :=
  if payload.length = layout.size then handler (layout.read payload) else { outcome := .rejected }

section

variable (types : TypeTraits) (server : RpcServer)

def askBackend (device : BitVec 32) : Served :=
  if device.toNat < server.storedGraphs.length then { outcome := .answered server }
  else { outcome := .rejected }

def getAlignment (device : BitVec 32) : Served := askBackend server device

def getMaxSize (device : BitVec 32) : Served := askBackend server device

def getDeviceMemory (device : BitVec 32) : Served := askBackend server device

def allocBuffer (allocated : Option Allocation) (request : BitVec 32 × BitVec 64) : Served :=
  if request.1.toNat < server.storedGraphs.length then
    match allocated with
    | some new =>
      { outcome := .answered { server with
          buffers := fun address =>
            if address = new.address then some new.buffer else server.buffers address } }
    | none => { outcome := .answered server }
  else { outcome := .rejected }

def withBuffer (address : BitVec 64) (handler : Buffer → Served) : Served :=
  match server.buffers address with
  | some buffer =>
    let served := handler buffer
    { served with accesses := .buffer address :: served.accesses }
  | none => { outcome := .aborted .assertion }

def bufferGetBase (address : BitVec 64) : Served :=
  withBuffer server address fun _ => { outcome := .answered server }

def freeBuffer (address : BitVec 64) : Served :=
  withBuffer server address fun _ =>
    { outcome := .answered { server with
        buffers := fun other => if other = address then none else server.buffers other } }

def bufferClear (request : BitVec 64 × UInt8) : Served :=
  withBuffer server request.1 fun buffer =>
    { accesses := [.memory buffer.base buffer.size], outcome := .answered server }

def withTensor (record : RpcTensor) (unknown : Outcome) (handler : Tensor Nat → Served) : Served :=
  match deserializeTensor types server.buffers record with
  | .error abort => { outcome := .aborted abort }
  | .ok none => { outcome := unknown }
  | .ok (some tensor) => handler tensor

def useBuffer (address : BitVec 64) (handler : Buffer → Served) : Served :=
  match server.buffers address with
  | some buffer =>
    let served := handler buffer
    { served with accesses := .buffer address :: served.accesses }
  | none => { accesses := [.buffer address], outcome := .aborted .nullPointer }

def inRegion (buffer : Buffer) (data offset size : BitVec 64) : Bool :=
  let p0 := buffer.base
  let p1 := p0 + buffer.size
  !(data + offset < p0 || p1 ≤ data + offset || p1 - data - offset < size)

/-- `ggml_backend_tensor_set` and `ggml_backend_tensor_get`. -/
def backendTensorAccess (tensor : Tensor Nat) (offset size : BitVec 64) (next : RpcServer) : Served :=
  if tensor.data = 0 then { outcome := .aborted .assertion }
  else if nbytes types tensor.type tensor.ne tensor.nb < offset + size then
    { outcome := .aborted .assertion }
  else if size = 0 then { outcome := .answered next }
  else
    { accesses := [.tensor tensor, .memory (tensor.data + offset) size], outcome := .answered next }

def accessRegion (tensor : Tensor Nat) (offset size : BitVec 64) (next : RpcServer) : Served :=
  useBuffer server tensor.buffer fun buffer =>
    if inRegion buffer tensor.data offset size then backendTensorAccess types tensor offset size next
    else { outcome := .rejected }

def fnvHash (data : Bytes) : BitVec 64 :=
  data.foldl (fun hash byte => (hash ^^^ BitVec.ofNat 64 byte.toNat) * 0x100000001b3)
    0xcbf29ce484222325

def hashThreshold : Nat := 10 * 1024 * 1024

def RpcServer.saveToCache (data : Bytes) : RpcServer :=
  if hashThreshold < data.length then
    { server with cacheDir := server.cacheDir.map fun files hash =>
        if hash = fnvHash data then some data else files hash }
  else server

def setTensor (input : Bytes) : Served :=
  if input.length < rpcTensorLayout.size + 8 then { outcome := .rejected }
  else
    let offset := Layout.u64.read (input.drop rpcTensorLayout.size)
    let data := input.drop (rpcTensorLayout.size + 8)
    withTensor types server (rpcTensorLayout.read input) (.aborted .assertion) fun tensor =>
      accessRegion types server tensor offset (BitVec.ofNat 64 data.length) (server.saveToCache data)

def getCachedFile (hash : BitVec 64) : Option Bytes := server.cacheDir >>= fun files => files hash

def setTensorHash (request : RpcTensor × BitVec 64 × BitVec 64) : Served :=
  match getCachedFile server request.2.2 with
  | none => { outcome := .answered server }
  | some cachedFile =>
    withTensor types server request.1 .rejected fun tensor =>
      if tensor.buffer = 0 then { outcome := .rejected }
      else
        accessRegion types server tensor request.2.1 (BitVec.ofNat 64 cachedFile.length) server

def getTensor (request : RpcTensor × BitVec 64 × BitVec 64) : Served :=
  withTensor types server request.1 (.aborted .assertion) fun tensor =>
    accessRegion types server tensor request.2.1 request.2.2 server

def initTensor (record : RpcTensor) : Served :=
  withTensor types server record .rejected fun tensor =>
    if tensor.buffer = 0 then { outcome := .answered server }
    else
      useBuffer server tensor.buffer fun buffer =>
        match buffer.initTensor with
        | none => { outcome := .answered server }
        | some setsExtra =>
          { accesses := [.tensor tensor]
            outcome := if setsExtra then .rejected else .answered server }

def copyTensor (request : RpcTensor × RpcTensor) : Served :=
  withTensor types server request.1 (.aborted .assertion) fun src =>
    withTensor types server request.2 (.aborted .assertion) fun dst =>
      let srcSize := nbytes types src.type src.ne src.nb
      useBuffer server dst.buffer fun buffer =>
        if buffer.base + buffer.size < dst.data + srcSize then { outcome := .rejected }
        else if buffer.cpyTensor then
          { accesses := [.tensor src, .tensor dst, .memory dst.data srcSize]
            outcome := .answered server }
        else { outcome := .answered server }

/-- `rpc_server::get_alloc_size`; the size comes from the type of the buffer. -/
def getAllocSize (request : BitVec 32 × RpcTensor) : Served :=
  if request.1.toNat < server.storedGraphs.length then
    withTensor types server request.2 (.aborted .assertion) fun tensor =>
      if tensor.buffer = 0 then { outcome := .answered server }
      else useBuffer server tensor.buffer fun _ => { outcome := .answered server }
  else { outcome := .rejected }

/-- What `ggml_backend_graph_compute` gets. -/
def Graph.accesses (graph : Graph) : List Access :=
  (graph.nodes.filter Option.isNone).map (fun _ => .nullNode) ++ graph.tensors.map .tensor

def graphCompute (input : Bytes) : Served :=
  match readGraph input with
  | none => { outcome := .rejected }
  | some message =>
    if server.storedGraphs.length ≤ message.device.toNat then { outcome := .rejected }
    else
      match message.build types server.buffers with
      | .error abort => { outcome := .aborted abort }
      | .ok none => { outcome := .rejected }
      | .ok (some graph) =>
        { accesses := graph.accesses
          outcome := .answered { server with
            storedGraphs := server.storedGraphs.set message.device.toNat (some graph) } }

def graphRecompute (device : BitVec 32) : Served :=
  match server.storedGraphs[device.toNat]? with
  | some (some graph) => { accesses := graph.accesses, outcome := .answered server }
  | _ => { outcome := .rejected }

inductive RpcCmd
  | allocBuffer
  | getAlignment
  | getMaxSize
  | bufferGetBase
  | freeBuffer
  | bufferClear
  | setTensor
  | setTensorHash
  | getTensor
  | copyTensor
  | graphCompute
  | getDeviceMemory
  | initTensor
  | getAllocSize
  | hello
  | deviceCount
  | graphRecompute
deriving DecidableEq

/-- A command with its payload, and what the backend answers if memory is asked of it. -/
structure Request where
  cmd : RpcCmd
  payload : Bytes
  allocated : Option Allocation := none

def tensorRegionLayout : Layout (RpcTensor × BitVec 64 × BitVec 64) :=
  .pair rpcTensorLayout (.pair .u64 .u64)

/-- The branches of `rpc_serve_client`. -/
def serve (request : Request) : Served :=
  match request.cmd with
  | .allocBuffer =>
    recvMsg (.pair .u32 .u64) request.payload (allocBuffer server request.allocated)
  | .getAlignment => recvMsg .u32 request.payload (getAlignment server)
  | .getMaxSize => recvMsg .u32 request.payload (getMaxSize server)
  | .bufferGetBase => recvMsg .u64 request.payload (bufferGetBase server)
  | .freeBuffer => recvMsg .u64 request.payload (freeBuffer server)
  | .bufferClear => recvMsg (.pair .u64 .byte) request.payload (bufferClear server)
  | .setTensor => setTensor types server request.payload
  | .setTensorHash => recvMsg tensorRegionLayout request.payload (setTensorHash types server)
  | .getTensor => recvMsg tensorRegionLayout request.payload (getTensor types server)
  | .copyTensor =>
    recvMsg (.pair rpcTensorLayout rpcTensorLayout) request.payload (copyTensor types server)
  | .graphCompute => graphCompute types server request.payload
  | .getDeviceMemory => recvMsg .u32 request.payload (getDeviceMemory server)
  | .initTensor => recvMsg rpcTensorLayout request.payload (initTensor types server)
  | .getAllocSize =>
    recvMsg (.pair .u32 rpcTensorLayout) request.payload fun request =>
      (getAllocSize types server request).ignoreResult server
  | .hello => { outcome := .rejected }
  | .deviceCount =>
    if request.payload = [] then { outcome := .answered server } else { outcome := .rejected }
  | .graphRecompute => recvMsg .u32 request.payload (graphRecompute server)

end

def newServer (devices : Nat) (cacheDir : Option (BitVec 64 → Option Bytes)) : RpcServer :=
  { buffers := fun _ => none, storedGraphs := List.replicate devices none, cacheDir }

end LlamaCpp.Rpc
