import LlamaCpp.Rpc.Tensor
import LlamaCpp.Lib.Ensures
import Mathlib.Data.Finset.Card
import Mathlib.Data.List.TakeWhile

/-!
# Graphs on the server

The server makes the tensors of a graph from their records.  A tensor is made when it is first
asked for and remembered under its id; then its sources are made, and its pointers are set.
-/

set_option autoImplicit false

namespace LlamaCpp.Rpc

open LlamaCpp.Lib List
open LlamaCpp.Ggml

/-- `ggml_backend_buffer`: where its memory is, whether it has `init_tensor` (and whether that sets
`extra`), and whether it has `cpy_tensor`. -/
structure Buffer where
  base : BitVec 64
  size : BitVec 64
  initTensor : Option Bool := none
  cpyTensor : Bool := true
  base_ne : base ≠ 0
  inMemory : base.toNat + size.toNat < 2 ^ 64

/-- The live set: the objects at the addresses that the server has given out. -/
abbrev Buffers := BitVec 64 → Option Buffer

def Inside (buffer : Buffer) (address : BitVec 64) (size : Nat) : Prop :=
  buffer.base.toNat ≤ address.toNat ∧
    address.toNat + size ≤ buffer.base.toNat + buffer.size.toNat

theorem toNat_base_add_size (buffer : Buffer) :
    (buffer.base + buffer.size).toNat = buffer.base.toNat + buffer.size.toNat := by
  rw [BitVec.toNat_add, Nat.mod_eq_of_lt buffer.inMemory]

inductive Abort
  | assertion
  | divisionByZero
  | nullPointer
  | outOfFuel
deriving DecidableEq

/-- `ggml_set_name`: the bytes before the end, 63 at most. -/
def setName (name : Fin 64 → UInt8) : Name where
  text := ((List.ofFn name).take 63).takeWhile fun c => c != 0
  short := by
    have all := ( takeWhile_prefix (l := (List.ofFn name).take 63) fun c => c != 0).length_le
    rw [length_take, length_ofFn] at all
    omega
  noNul member := by
    have some_ := mem_takeWhile_imp member
    exact absurd some_ (by decide)

section

variable (types : TypeTraits) (buffers : Buffers)

/-- What `deserialize_tensor` requires of a tensor with a buffer. -/
def inBuffer (buffer : Buffer) (data size : BitVec 64) : Bool :=
  data ≤ data + size && buffer.base ≤ data && data + size ≤ buffer.base + buffer.size

def RpcTensor.toTensor (tensor : RpcTensor) (buffer : BitVec 64) : Tensor Nat :=
  { type := tensor.type, buffer, ne := tensor.ne, nb := tensor.nb, op := tensor.op
    opParams := tensor.opParams, flags := tensor.flags, src := fun _ => none, viewSrc := none
    viewOffs := 0, data := tensor.data, name := setName tensor.name }

/-- `rpc_server::deserialize_tensor`; nothing is made of a record with an unknown type. -/
def deserializeTensor (tensor : RpcTensor) : Except Abort (Option (Tensor Nat)) :=
  if typeCount ≤ tensor.type then .ok none
  -- the row size that `ggml_new_tensor_4d` computes for a type that has been removed
  else if types.blckSize tensor.type = 0 then .error .divisionByZero
  else
    match buffers tensor.buffer with
    | none => .ok (some (tensor.toTensor 0))
    | some buffer =>
      if tensor.buffer = 0 then .ok (some (tensor.toTensor 0))
      else if inBuffer buffer tensor.data (nbytes types tensor.type tensor.ne tensor.nb) then
        .ok (some (tensor.toTensor tensor.buffer))
      else .error .assertion

/-- The tensors made so far, by their place in the context, and `tensor_map`. -/
structure Builder where
  tensors : List (Tensor Nat) := []
  tensorMap : List (BitVec 64 × Nat) := []

def Builder.setLink (builder : Builder) (place : Nat) (link : Link) (target : Nat) : Builder :=
  { builder with tensors := builder.tensors.modify place fun tensor => tensor.setLink link target }

def Builder.setViewOffs (builder : Builder) (place : Nat) (viewOffs : BitVec 64) : Builder :=
  { builder with tensors := builder.tensors.modify place fun tensor => { tensor with viewOffs } }

/-- A new tensor, entered in `tensor_map`. -/
def Builder.push (builder : Builder) (id : BitVec 64) (tensor : Tensor Nat) : Builder :=
  { tensors := builder.tensors ++ [tensor]
    tensorMap := (id, builder.tensors.length) :: builder.tensorMap }

/-- The loop over the sources and the view of the tensor at a place, with what makes a node: whether
all of them were made. -/
def createLinks (create : BitVec 64 → Builder → Except Abort (Option Nat × Builder))
    (tensor : RpcTensor) (place : Nat) : List Link → Builder → Except Abort (Bool × Builder)
  | [], builder => .ok (true, builder)
  | link :: rest, builder =>
    if tensor.link link = 0 then createLinks create tensor place rest builder
    else
      create (tensor.link link) builder >>= fun made =>
        match made.1 with
        | none => .ok (false, made.2)
        | some target =>
          createLinks create tensor place rest (made.2.setLink place link target)

variable (tensorPtrs : BitVec 64 → Option RpcTensor)

/-- `rpc_server::create_node`: the place of the node, if it is made.  Every level of the recursion
enters another id in `tensor_map`. -/
def createNode : Nat → BitVec 64 → Builder → Except Abort (Option Nat × Builder)
  | 0, _, _ => .error .outOfFuel
  | fuel + 1, id, builder =>
    match builder.tensorMap.lookup id with
    | some place => .ok (some place, builder)
    | none =>
      match tensorPtrs id with
      | none => .ok (none, builder)
      | some tensor =>
        deserializeTensor types buffers tensor >>= fun result =>
          match result with
          | none => .ok (none, builder)
          | some result =>
            let place := builder.tensors.length
            createLinks (createNode fuel) tensor place links (builder.push id result) >>=
              fun made =>
                if made.1 then .ok (some place, made.2.setViewOffs place tensor.viewOffs)
                else .ok (none, made.2)

def createNodes (fuel : Nat) : List (BitVec 64) → Builder →
    Except Abort (Option (List (Option Nat) × Builder))
  | [], builder => .ok (some ([], builder))
  | id :: rest, builder =>
    createNode types buffers tensorPtrs fuel id builder >>= fun made =>
      if made.1 = none ∧ id ≠ 0 then .ok none
      else
        createNodes fuel rest made.2 >>= fun others =>
          .ok (others.map fun others => (made.1 :: others.1, others.2))

variable {types buffers tensorPtrs}

variable {α : Type} {builder : Builder} {id : BitVec 64} {ids : Finset (BitVec 64)}

theorem forall_mem_modify {P : α → Prop} {items : List α} {change : α → α}
    (keeps : ∀ item, P item → P (change item)) (all : ∀ item ∈ items, P item) (place : Nat) :
    ∀ item ∈ items.modify place change, P item := by
  intro item member
  obtain ⟨i, here⟩ := mem_iff_getElem?.mp member
  rw [List.getElem?_modify] at here
  obtain ⟨old, was, same⟩ := Option.map_eq_some_iff.mp here
  have holds := all old (mem_of_getElem? was)
  rw [← same]
  split
  · exact keeps old holds
  · exact holds

structure KeptBy (types : TypeTraits) (buffers : Buffers) (tensorPtrs : BitVec 64 → Option RpcTensor)
    (Asked : BitVec 64 → Prop) (P : Tensor Nat → Prop) : Prop where
  made : ∀ id record tensor, Asked id → tensorPtrs id = some record →
    deserializeTensor types buffers record = .ok (some tensor) → P tensor
  setLink : ∀ tensor link target, P tensor → P (tensor.setLink link target)
  setViewOffs : ∀ tensor viewOffs, P tensor → P { tensor with viewOffs }

def Builder.Forall (builder : Builder) (P : Tensor Nat → Prop) : Prop :=
  ∀ tensor ∈ builder.tensors, P tensor

variable {Asked : BitVec 64 → Prop} {P : Tensor Nat → Prop}

theorem createLinks_forall {create : BitVec 64 → Builder → Except Abort (Option Nat × Builder)}
    {record : RpcTensor} {place : Nat}
    (setLink : ∀ tensor link target, P tensor → P (tensor.setLink link target))
    (each : ∀ link, record.link link ≠ 0 → ∀ builder : Builder, builder.Forall P → Ensures (create (record.link link) builder) fun made => made.2.Forall P)
    (todo : List Link) (all : builder.Forall P) :
    Ensures (createLinks create record place todo builder) fun made => made.2.Forall P := by
  induction todo generalizing builder with
  | nil => exact ensures_ok all
  | cons link rest ih =>
    refine ensures_ite (fun _ => ih all) fun some_ => ?_
    refine (each link some_ builder all).bind ?_
    rintro ⟨target, next⟩ kept
    cases target with
    | none => exact ensures_ok kept
    | some target => exact ih (forall_mem_modify (fun tensor => setLink tensor link target) kept place)

theorem createNode_forall (kept : KeptBy types buffers tensorPtrs Asked P)
    (closed : ∀ id record link, Asked id → tensorPtrs id = some record → record.link link ≠ 0 → Asked (record.link link))
    (fuel : Nat) (asked : Asked id) (all : builder.Forall P) :
    Ensures (createNode types buffers tensorPtrs fuel id builder) fun made => made.2.Forall P := by
  induction fuel generalizing id builder with
  | zero => exact ensures_error
  | succ fuel ih =>
    rw [createNode]
    split
    · exact ensures_ok all
    split
    · exact ensures_ok all
    rename_i record found
    intro final returned
    obtain ⟨result, deserialized, run⟩ := bind_eq_ok.mp returned
    cases result with
    | none =>
      cases run
      exact all
    | some tensor =>
      obtain ⟨made, linked, ends⟩ := bind_eq_ok.mp run
      have new : (builder.push id tensor).Forall P := by
        intro other member
        rcases mem_append.mp member with old | last
        · exact all other old
        · rw [mem_singleton.mp last]
          exact kept.made id record tensor asked found deserialized
      have each := createLinks_forall kept.setLink
        (fun link some_ next nextAll => ih (closed id record link asked found some_) nextAll)
        links new made linked
      split at ends
      · cases ends
        exact forall_mem_modify (fun tensor => kept.setViewOffs tensor _) each _
      · cases ends
        exact each

theorem createNodes_forall (kept : KeptBy types buffers tensorPtrs Asked P)
    (closed : ∀ id record link, Asked id → tensorPtrs id = some record → record.link link ≠ 0 → Asked (record.link link))
    (fuel : Nat) {ids : List (BitVec 64)} (asked : ∀ id ∈ ids, Asked id) (all : builder.Forall P) :
    Ensures (createNodes types buffers tensorPtrs fuel ids builder) fun made =>
      ∀ built, made = some built →
        built.2.Forall P ∧ ((∀ id ∈ ids, id ≠ 0) → ∀ node ∈ built.1, node.isSome) := by
  induction ids generalizing builder with
  | nil =>
    refine ensures_ok ?_
    rintro built ⟨⟩
    exact ⟨all, fun _ node member => absurd member not_mem_nil⟩
  | cons id rest ih =>
    refine (createNode_forall kept closed fuel (asked id mem_cons_self) all).bind ?_
    intro made madeAll
    refine ensures_ite (fun _ => ensures_ok fun built impossible => by cases impossible) ?_
    intro passed
    refine (ih (fun other member => asked other (mem_cons_of_mem _ member)) madeAll).bind ?_
    intro others restBuilt
    refine ensures_ok ?_
    rintro built same
    obtain ⟨tail, some_, rfl⟩ := Option.map_eq_some_iff.mp same
    obtain ⟨tailAll, nodes⟩ := restBuilt tail some_
    refine ⟨tailAll, fun ids node member => ?_⟩
    rcases mem_cons.mp member with rfl | later
    · have hasId := ids id mem_cons_self
      by_contra missing
      exact passed ⟨by simpa using missing, hasId⟩
    · exact nodes (fun other inRest => ids other (mem_cons_of_mem _ inRest)) node later

def Builder.Extends (builder final : Builder) : Prop :=
  ∀ id place, builder.tensorMap.lookup id = some place → final.tensorMap.lookup id = some place

theorem Builder.Extends.trans {one two three : Builder} (first : one.Extends two)
    (second : two.Extends three) : one.Extends three :=
  fun id place entered => second id place (first id place entered)

theorem Builder.extends_push (fresh : builder.tensorMap.lookup id = none) (tensor : Tensor Nat) :
    builder.Extends (builder.push id tensor) := by
  intro other place entered
  rw [push, lookup_cons]
  have apart : (other == id) = false := by
    rw [beq_eq_false_iff_ne]
    rintro rfl
    rw [fresh] at entered
    contradiction
  rw [apart]
  exact entered

theorem Builder.lookup_push (builder : Builder) (id : BitVec 64) (tensor : Tensor Nat) :
    (builder.push id tensor).tensorMap.lookup id = some builder.tensors.length := by
  rw [push, lookup_cons, beq_self_eq_true]

def Builder.missing (builder : Builder) (ids : Finset (BitVec 64)) : Nat :=
  (ids.filter fun id => builder.tensorMap.lookup id = none).card

theorem Builder.Extends.missing_le {final : Builder} (grows : builder.Extends final)
    (ids : Finset (BitVec 64)) : final.missing ids ≤ builder.missing ids := by
  apply Finset.card_le_card
  intro id member
  rw [Finset.mem_filter] at member ⊢
  refine ⟨member.1, ?_⟩
  cases entered : builder.tensorMap.lookup id with
  | none => rfl
  | some place =>
    rw [grows id place entered] at member
    cases member.2

theorem Builder.missing_push_lt (member : id ∈ ids) (fresh : builder.tensorMap.lookup id = none)
    (tensor : Tensor Nat) : (builder.push id tensor).missing ids < builder.missing ids := by
  apply Finset.card_lt_card
  refine ⟨?_, fun all => ?_⟩
  · intro other here
    rw [Finset.mem_filter] at here ⊢
    refine ⟨here.1, ?_⟩
    cases entered : builder.tensorMap.lookup other with
    | none => rfl
    | some place =>
      rw [extends_push fresh tensor other place entered] at here
      cases here.2
  · have here := all (Finset.mem_filter.mpr ⟨member, fresh⟩)
    rw [Finset.mem_filter, lookup_push] at here
    cases here.2

def Ends {α : Type} (builder : Builder) (result : Except Abort (α × Builder)) : Prop :=
  result ≠ .error .outOfFuel ∧ Ensures result fun made => builder.Extends made.2

theorem ends_ok {made : α × Builder} (grows : builder.Extends made.2) :
    Ends builder (.ok made) := by
  refine ⟨?_, ensures_ok grows⟩
  rintro ⟨⟩

theorem Ends.grow {middle : Builder} {result : Except Abort (α × Builder)}
    (grows : builder.Extends middle) (ends : Ends middle result) : Ends builder result :=
  ⟨ends.1, ends.2.mono fun _ later => grows.trans later⟩

theorem Ends.bind {β : Type} {result : Except Abort (α × Builder)}
    {next : α × Builder → Except Abort (β × Builder)} (first : Ends builder result)
    (second : ∀ made, builder.Extends made.2 → Ends made.2 (next made)) :
    Ends builder (result >>= next) := by
  cases result with
  | error abort =>
    refine ⟨?_, ensures_error⟩
    rintro ⟨⟩
    exact first.1 rfl
  | ok made =>
    have grows := first.2 made rfl
    exact (second made grows).grow grows

theorem deserializeTensor_ne_outOfFuel (record : RpcTensor) :
    deserializeTensor types buffers record ≠ .error .outOfFuel := by
  unfold deserializeTensor
  repeat' split
  all_goals simp

theorem createLinks_ends {create : BitVec 64 → Builder → Except Abort (Option Nat × Builder)}
    {record : RpcTensor} {place : Nat} {start : Builder}
    (each : ∀ id builder, start.Extends builder → Ends builder (create id builder))
    (todo : List Link) (grown : start.Extends builder) :
    Ends builder (createLinks create record place todo builder) := by
  induction todo generalizing builder with
  | nil => exact ends_ok fun _ _ entered => entered
  | cons link rest ih =>
    rw [createLinks]
    split
    · exact ih grown
    refine (each (record.link link) builder grown).bind ?_
    rintro ⟨target, next⟩ grows
    cases target with
    | none => exact ends_ok fun _ _ entered => entered
    | some target => exact @ih (next.setLink place link target) (grown.trans grows)

theorem createNode_ends (known : ∀ id record, tensorPtrs id = some record → id ∈ ids) {fuel : Nat}
    (enough : builder.missing ids < fuel) (id : BitVec 64) :
    Ends builder (createNode types buffers tensorPtrs fuel id builder) := by
  induction fuel generalizing id builder with
  | zero => exact absurd enough (Nat.not_lt_zero _)
  | succ fuel ih =>
    have same : builder.Extends builder := fun _ _ entered => entered
    rw [createNode]
    split
    · exact ends_ok same
    rename_i fresh
    split
    · exact ends_ok same
    rename_i record found
    have fuelled : deserializeTensor types buffers record ≠ .error .outOfFuel :=
      deserializeTensor_ne_outOfFuel record
    cases deserialized : deserializeTensor types buffers record with
    | error abort =>
      rw [deserialized] at fuelled
      refine ⟨?_, ensures_error⟩
      rintro ⟨⟩
      exact fuelled rfl
    | ok result =>
      cases result with
      | none => exact ends_ok same
      | some tensor =>
        have less := Builder.missing_push_lt (known id record found) fresh tensor
        have linked : Ends (builder.push id tensor)
            (createLinks (createNode types buffers tensorPtrs fuel) record
              builder.tensors.length links (builder.push id tensor)) :=
          createLinks_ends (fun other next (grown : (builder.push id tensor).Extends next) =>
            ih (lt_of_le_of_lt (grown.missing_le ids) (by omega)) other)
            links (fun _ _ entered => entered)
        refine Ends.grow (Builder.extends_push fresh tensor) (linked.bind fun made _ => ?_)
        split
        · exact ends_ok fun _ _ entered => entered
        · exact ends_ok fun _ _ entered => entered

theorem createNodes_ne_outOfFuel (known : ∀ id record, tensorPtrs id = some record → id ∈ ids)
    {fuel : Nat} (enough : builder.missing ids < fuel) (nodes : List (BitVec 64)) :
    createNodes types buffers tensorPtrs fuel nodes builder ≠ .error .outOfFuel := by
  induction nodes generalizing builder with
  | nil => rintro ⟨⟩
  | cons id rest ih =>
    obtain ⟨fuelled, grows⟩ : Ends builder (createNode types buffers tensorPtrs fuel id builder) :=
      createNode_ends known enough id
    intro failed
    rw [createNodes] at failed
    cases made : createNode types buffers tensorPtrs fuel id builder with
    | error abort =>
      rw [made] at failed fuelled
      cases failed
      exact fuelled rfl
    | ok result =>
      have fewer := (grows result made).missing_le ids
      rw [made, ok_bind] at failed
      split at failed
      · cases failed
      cases others : createNodes types buffers tensorPtrs fuel rest result.2 with
      | error abort =>
        rw [others] at failed
        cases failed
        exact ih (lt_of_le_of_lt fewer enough) others
      | ok others' =>
        rw [others] at failed
        cases failed

end

/-- `ggml_cgraph` with the tensors of its context. -/
structure Graph where
  nodes : List (Option Nat)
  tensors : List (Tensor Nat)

structure GraphMessage where
  device : BitVec 32
  nodes : List (BitVec 64)
  tensors : List RpcTensor

def readGraph (input : Bytes) : Option GraphMessage :=
  if input.length < 8 then none
  else
    let nNodes := (Layout.u32.read (input.drop 4)).toNat
    if input.length < 8 + nNodes * 8 + 4 then none
    else
      let rest := input.drop (8 + nNodes * 8)
      let nTensors := (Layout.u32.read rest).toNat
      if input.length < 8 + nNodes * 8 + 4 + nTensors * rpcTensorLayout.size then none
      else some
        { device := Layout.u32.read input
          nodes := Layout.u64.readMany nNodes (input.drop 8)
          tensors := rpcTensorLayout.readMany nTensors (rest.drop 4) }

/-- `tensor_ptrs`: the last record with an id. -/
def GraphMessage.tensorPtrs (message : GraphMessage) (id : BitVec 64) : Option RpcTensor :=
  message.tensors.reverse.find? fun tensor => tensor.id == id

def GraphMessage.build (types : TypeTraits) (buffers : Buffers) (message : GraphMessage) :
    Except Abort (Option Graph) :=
  createNodes types buffers message.tensorPtrs (message.tensors.length + 1) message.nodes {} >>=
    fun built => .ok (built.map fun built => { nodes := built.1, tensors := built.2.tensors })

theorem GraphMessage.mem_of_tensorPtrs {message : GraphMessage} {id : BitVec 64} {record : RpcTensor}
    (found : message.tensorPtrs id = some record) : record ∈ message.tensors ∧ record.id = id :=
  ⟨mem_reverse.mp (mem_of_find?_eq_some found), beq_iff_eq.mp (List.find?_some found :)⟩

/-- Building the graph of a message ends, whatever its tensors name as their sources. -/
theorem GraphMessage.build_ne_outOfFuel (types : TypeTraits) (buffers : Buffers)
    (message : GraphMessage) : message.build types buffers ≠ .error .outOfFuel := by
  have known (id : BitVec 64) (record : RpcTensor) (found : message.tensorPtrs id = some record) :
      id ∈ (message.tensors.map RpcTensor.id).toFinset := by
    obtain ⟨member, same⟩ := mem_of_tensorPtrs found
    exact mem_toFinset.mpr (mem_map.mpr ⟨record, member, same⟩)
  have enough : ({} : Builder).missing (message.tensors.map RpcTensor.id).toFinset <
      message.tensors.length + 1 := by
    have all := (Finset.card_filter_le (message.tensors.map RpcTensor.id).toFinset
      fun id => ({} : Builder).tensorMap.lookup id = none).trans (toFinset_card_le _)
    rw [length_map] at all
    exact Nat.lt_succ_of_le all
  have fuelled : createNodes types buffers message.tensorPtrs (message.tensors.length + 1)
      message.nodes {} ≠ .error .outOfFuel := createNodes_ne_outOfFuel known enough message.nodes
  intro failed
  rw [build] at failed
  cases made : createNodes types buffers message.tensorPtrs (message.tensors.length + 1)
      message.nodes {} with
  | error abort =>
    rw [made] at failed
    cases failed
    exact fuelled made
  | ok built =>
    rw [made] at failed
    cases failed

end LlamaCpp.Rpc
