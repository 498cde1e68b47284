import LlamaCpp.Rpc.GraphBuild

/-!
# Graphs on the wire

The client writes the tensors of a graph depth first, each once, the sources before the tensors that
use them.  What the server reads is the same list.
-/

set_option autoImplicit false

namespace LlamaCpp.Rpc

open LlamaCpp.Lib List
open LlamaCpp.Ggml

/-- A compute graph in the memory of the client.  It has finitely many tensors, and their pointers
stay among them. -/
structure ClientGraph where
  addresses : Finset (BitVec 64)
  tensor : BitVec 64 → Tensor (BitVec 64)
  nodes : List (BitVec 64)
  null_not_mem : 0 ∉ addresses
  node_mem : ∀ address ∈ nodes, address ∈ addresses
  link_mem : ∀ address ∈ addresses, ∀ link target,
    (tensor address).link link = some target → target ∈ addresses

inductive ClientGraph.Reachable (graph : ClientGraph) : BitVec 64 → Prop
  | node {address : BitVec 64} (member : address ∈ graph.nodes) : graph.Reachable address
  | link {address target : BitVec 64} (reachable : graph.Reachable address) (link : Link)
      (points : (graph.tensor address).link link = some target) : graph.Reachable target

theorem ClientGraph.Reachable.mem {graph : ClientGraph} {address : BitVec 64}
    (reachable : graph.Reachable address) : address ∈ graph.addresses := by
  induction reachable with
  | node member => exact graph.node_mem _ member
  | link _ link points ih => exact graph.link_mem _ ih link _ points

def Name.toWire (name : Name) (i : Fin 64) : UInt8 := name.text.getD i 0

def serializeTensor (address : BitVec 64) (tensor : Tensor (BitVec 64)) : RpcTensor :=
  { id := address, type := tensor.type, buffer := tensor.buffer, ne := tensor.ne, nb := tensor.nb
    op := tensor.op, opParams := tensor.opParams, flags := tensor.flags
    src := fun i => (tensor.src i).getD 0, viewSrc := tensor.viewSrc.getD 0
    viewOffs := tensor.viewOffs, data := tensor.data, name := tensor.name.toWire
    padding := fun _ => 0 }

/-- The tensors written so far, and `visited`. -/
structure Walk where
  tensors : List RpcTensor := []
  visited : List (BitVec 64) := []

section

variable (graph : ClientGraph)

def ClientGraph.record (address : BitVec 64) : RpcTensor :=
  serializeTensor address (graph.tensor address)

/-- `add_tensor`.  Every level of the recursion visits another tensor. -/
def addTensor : Nat → Option (BitVec 64) → Walk → Walk
  | _, none, walk => walk
  | 0, some _, walk => walk
  | fuel + 1, some address, walk =>
    if address ∈ walk.visited then walk
    else
      let walk := links.foldl
        (fun walk link => addTensor fuel ((graph.tensor address).link link) walk)
        { walk with visited := address :: walk.visited }
      { walk with tensors := walk.tensors ++ [graph.record address] }

def addNodes : Walk :=
  graph.nodes.foldl
    (fun walk address => addTensor graph (graph.addresses.card + 1) (some address) walk) {}

def serializeGraph (device : BitVec 32) : Bytes :=
  let tensors := (addNodes graph).tensors
  Layout.u32.write device ++ (Layout.u32.write (BitVec.ofNat 32 graph.nodes.length) ++
    (Layout.u64.writeMany graph.nodes ++ (Layout.u32.write (BitVec.ofNat 32 tensors.length) ++
      rpcTensorLayout.writeMany tensors)))

end

section

variable {graph : ClientGraph}

/-- Between two walks, every tensor that is visited is written, and what it points to is visited. -/
structure Walked (graph : ClientGraph) (walk next : Walk) : Prop where
  visited : walk.visited ⊆ next.visited
  tensors : walk.tensors ⊆ next.tensors
  source : ∀ record ∈ next.tensors, record ∈ walk.tensors ∨
    ∃ address, graph.Reachable address ∧ record = graph.record address
  written : ∀ address ∈ next.visited, address ∉ walk.visited →
    graph.record address ∈ next.tensors ∧
      ∀ link target, (graph.tensor address).link link = some target → target ∈ next.visited

theorem Walked.refl (walk : Walk) : Walked graph walk walk where
  visited _ member := member
  tensors _ member := member
  source _ member := .inl member
  written _ member fresh := absurd member fresh

theorem Walked.trans {one two three : Walk} (first : Walked graph one two)
    (second : Walked graph two three) : Walked graph one three where
  visited _ member := second.visited (first.visited member)
  tensors _ member := second.tensors (first.tensors member)
  source record member := by
    rcases second.source record member with earlier | new
    · exact first.source record earlier
    · exact .inr new
  written address member fresh := by
    by_cases earlier : address ∈ two.visited
    · obtain ⟨written, targets⟩ := first.written address earlier fresh
      exact ⟨second.tensors written,
        fun link target points => second.visited (targets link target points)⟩
    · exact second.written address member earlier

def Walk.unvisited (graph : ClientGraph) (walk : Walk) : Nat :=
  (graph.addresses.filter fun address => address ∉ walk.visited).card

variable {walk : Walk}

theorem Walked.unvisited_le {next : Walk} (walked : Walked graph walk next) :
    next.unvisited graph ≤ walk.unvisited graph := by
  apply Finset.card_le_card
  intro address member
  rw [Finset.mem_filter] at member ⊢
  exact ⟨member.1, fun before => member.2 (walked.visited before)⟩

theorem Walk.unvisited_cons_lt {address : BitVec 64} (inGraph : address ∈ graph.addresses)
    (fresh : address ∉ walk.visited) (tensors : List RpcTensor) :
    ({ tensors, visited := address :: walk.visited } : Walk).unvisited graph <
      walk.unvisited graph := by
  apply Finset.card_lt_card
  refine ⟨?_, fun all => ?_⟩
  · intro other member
    rw [Finset.mem_filter] at member ⊢
    exact ⟨member.1, fun before => member.2 (mem_cons_of_mem _ before)⟩
  · have here := all (Finset.mem_filter.mpr ⟨inGraph, fresh⟩)
    exact (Finset.mem_filter.mp here).2 mem_cons_self

theorem foldl_walked {α : Type} (step : Walk → α → Walk) (start : Walk)
    (target : α → Option (BitVec 64)) (items : List α)
    (each : ∀ item ∈ items, ∀ walk, Walked graph start walk → Walked graph walk (step walk item) ∧ ∀ address, target item = some address → address ∈ (step walk item).visited)
    (walked : Walked graph start walk) : Walked graph walk (items.foldl step walk) ∧
      ∀ item ∈ items, ∀ address, target item = some address →
        address ∈ (items.foldl step walk).visited := by
  induction items generalizing walk with
  | nil => exact ⟨.refl walk, fun _ member => absurd member not_mem_nil⟩
  | cons item rest ih =>
    obtain ⟨step_, here⟩ := each item mem_cons_self walk walked
    obtain ⟨others, later⟩ := ih (fun other member => each other (mem_cons_of_mem _ member))
      (walked.trans step_)
    refine ⟨step_.trans others, fun other member address points => ?_⟩
    rcases mem_cons.mp member with rfl | inRest
    · exact others.visited (here address points)
    · exact later other inRest address points

theorem addTensor_walked {fuel : Nat} {pointer : Option (BitVec 64)}
    (enough : walk.unvisited graph < fuel)
    (reachable : ∀ address, pointer = some address → graph.Reachable address) :
    Walked graph walk (addTensor graph fuel pointer walk) ∧
      ∀ address, pointer = some address → address ∈ (addTensor graph fuel pointer walk).visited := by
  induction fuel generalizing pointer walk with
  | zero => exact absurd enough (Nat.not_lt_zero _)
  | succ fuel ih =>
    cases pointer with
    | none => exact ⟨.refl walk, fun _ impossible => by cases impossible⟩
    | some address =>
      have here := reachable address rfl
      rw [addTensor]
      split
      · rename_i visited
        refine ⟨.refl walk, ?_⟩
        rintro _ ⟨⟩
        exact visited
      rename_i fresh
      have less := Walk.unvisited_cons_lt here.mem fresh walk.tensors
      obtain ⟨walked, targets⟩ := foldl_walked
        (fun walk link => addTensor graph fuel ((graph.tensor address).link link) walk)
        { tensors := walk.tensors, visited := address :: walk.visited }
        (graph.tensor address).link links
        (fun link _ next walked =>
          ih (lt_of_le_of_lt walked.unvisited_le (by omega))
            fun target points => here.link link points)
        (.refl _)
      refine ⟨⟨fun other before => walked.visited (mem_cons_of_mem _ before),
        fun record before => mem_append_left _ (walked.tensors before), ?_, ?_⟩, ?_⟩
      · intro record member
        rcases mem_append.mp member with earlier | last
        · exact walked.source record earlier
        · exact .inr ⟨address, here, mem_singleton.mp last⟩
      · intro other member notBefore
        by_cases same : other = address
        · subst same
          exact ⟨mem_append_right _ (mem_singleton_self _),
            fun link target points => targets link (mem_links link) target points⟩
        · have outside : other ∉ address :: walk.visited := by
            rw [mem_cons]
            rintro (equal | before)
            · exact same equal
            · exact notBefore before
          obtain ⟨written, points⟩ := walked.written other member outside
          exact ⟨mem_append_left _ written, points⟩
      · rintro _ ⟨⟩
        exact walked.visited mem_cons_self

theorem mem_addNodes {record : RpcTensor} :
    record ∈ (addNodes graph).tensors ↔
      ∃ address, graph.Reachable address ∧ record = graph.record address := by
  obtain ⟨walked, roots⟩ := foldl_walked
    (fun walk address => addTensor graph (graph.addresses.card + 1) (some address) walk) {} some
    graph.nodes
    (fun address member walk walked =>
      addTensor_walked (Nat.lt_succ_of_le (Finset.card_filter_le ..))
        (by
          rintro _ ⟨⟩
          exact .node member))
    (.refl _)
  constructor
  · intro member
    rcases walked.source record member with impossible | source
    · cases impossible
    · exact source
  · rintro ⟨address, reachable, rfl⟩
    have visited : address ∈ (addNodes graph).visited := by
      induction reachable with
      | @node address member => exact roots address member address rfl
      | link _ link points ih =>
        exact (walked.written _ ih not_mem_nil).2 link _ points
    exact (walked.written address visited not_mem_nil).1

end

section

variable {graph : ClientGraph}

theorem length_serializeGraph (device : BitVec 32) :
    (serializeGraph graph device).length =
      12 + graph.nodes.length * 8 + (addNodes graph).tensors.length * rpcTensorLayout.size := by
  simp only [serializeGraph, length_append, Layout.length_writeMany]
  change 4 + (4 + (graph.nodes.length * 8 + (4 + _))) = _
  omega

def ClientGraph.message (graph : ClientGraph) (device : BitVec 32) : GraphMessage :=
  { device, nodes := graph.nodes, tensors := (addNodes graph).tensors }

theorem readGraph_serializeGraph {device : BitVec 32}
    (small : (serializeGraph graph device).length < 2 ^ 31) :
    readGraph (serializeGraph graph device) = some (graph.message device) := by
  have length : (serializeGraph graph device).length =
      12 + graph.nodes.length * 8 + (addNodes graph).tensors.length * 376 :=
    length_serializeGraph device
  have nNodes : (BitVec.ofNat 32 graph.nodes.length).toNat = graph.nodes.length := by
    rw [BitVec.toNat_ofNat, Nat.mod_eq_of_lt (by omega)]
  have nTensors : (BitVec.ofNat 32 (addNodes graph).tensors.length).toNat =
      (addNodes graph).tensors.length := by
    rw [BitVec.toNat_ofNat, Nat.mod_eq_of_lt (by omega)]
  have afterDevice : (serializeGraph graph device).drop 4 =
      Layout.u32.write (BitVec.ofNat 32 graph.nodes.length) ++
        (Layout.u64.writeMany graph.nodes ++
          (Layout.u32.write (BitVec.ofNat 32 (addNodes graph).tensors.length) ++
            rpcTensorLayout.writeMany (addNodes graph).tensors)) :=
    drop_left' (Layout.u32.length_write device)
  have afterCount : (serializeGraph graph device).drop 8 =
      Layout.u64.writeMany graph.nodes ++
        (Layout.u32.write (BitVec.ofNat 32 (addNodes graph).tensors.length) ++
          rpcTensorLayout.writeMany (addNodes graph).tensors) := by
    rw [show 8 = 4 + 4 from rfl, ← drop_drop]
    exact drop_left' (Layout.u32.length_write _)
  have afterNodes : (serializeGraph graph device).drop (8 + graph.nodes.length * 8) =
      Layout.u32.write (BitVec.ofNat 32 (addNodes graph).tensors.length) ++
        rpcTensorLayout.writeMany (addNodes graph).tensors := by
    rw [← drop_drop]
    exact drop_left' (Layout.u64.length_writeMany graph.nodes)
  have readDevice : Layout.u32.read (serializeGraph graph device) = device :=
    Layout.u32.read_write device _
  have readNodes : Layout.u64.readMany graph.nodes.length ((serializeGraph graph device).drop 8) =
      graph.nodes := by
    rw [afterCount, Layout.readMany_writeMany]
  have readTensors : rpcTensorLayout.readMany (addNodes graph).tensors.length
      (((serializeGraph graph device).drop (8 + graph.nodes.length * 8)).drop 4) =
        (addNodes graph).tensors := by
    have all := rpcTensorLayout.readMany_writeMany (addNodes graph).tensors []
    rw [append_nil] at all
    have afterTensorCount : ((serializeGraph graph device).drop
        (8 + graph.nodes.length * 8)).drop 4 = rpcTensorLayout.writeMany (addNodes graph).tensors := by
      rw [afterNodes]
      exact drop_left' (Layout.u32.length_write _)
    rw [afterTensorCount, all]
  have readCount : (Layout.u32.read ((serializeGraph graph device).drop 4)).toNat =
      graph.nodes.length := by
    rw [afterDevice, Layout.u32.read_write, nNodes]
  have readTensorCount : (Layout.u32.read
      ((serializeGraph graph device).drop (8 + graph.nodes.length * 8))).toNat =
        (addNodes graph).tensors.length := by
    rw [afterNodes, Layout.u32.read_write, nTensors]
  have size : rpcTensorLayout.size = 376 := rfl
  unfold readGraph
  rw [if_neg (by omega)]
  dsimp only
  rw [readCount, if_neg (by omega), readTensorCount, size, if_neg (by omega), readDevice, readNodes,
    readTensors]
  rfl

end

end LlamaCpp.Rpc
