import LlamaCpp.Rpc.GraphWire
import LlamaCpp.Rpc.Safety

/-!
# Rebuilding a graph

The server makes one tensor for each id, in the order in which they are first asked for.  Beyond the
tensors that are still being filled, every tensor that has been made is the image of the client's.
-/

set_option autoImplicit false

namespace LlamaCpp.Rpc

open LlamaCpp.Lib List
open LlamaCpp.Ggml

theorem ofFn_toWire (name : Name) :
    List.ofFn name.toWire = name.text ++ List.replicate (64 - name.text.length) 0 := by
  have short := name.short
  apply ext_getElem?
  intro i
  rw [List.getElem?_ofFn, List.getElem?_append, List.getElem?_replicate]
  by_cases inside : i < 64
  · rw [dif_pos inside, Name.toWire]
    by_cases inText : i < name.text.length
    · rw [if_pos inText, getD_eq_getElem?_getD, List.getElem?_eq_getElem inText]
      rfl
    · have outside : name.text.length ≤ i := by omega
      rw [if_neg inText, if_pos (by omega), getD_eq_getElem?_getD,
        List.getElem?_eq_none outside]
      rfl
  · rw [dif_neg inside, if_neg (by omega), if_neg (by omega)]

theorem setName_toWire (name : Name) : setName name.toWire = name := by
  have short := name.short
  have kept : ((List.ofFn name.toWire).take 63).takeWhile (fun c => c != 0) = name.text := by
    rw [ofFn_toWire, take_append, take_of_length_le (by omega), take_replicate,
      takeWhile_append_of_pos, takeWhile_replicate]
    · exact append_nil _
    · intro c member
      rw [bne_iff_ne]
      rintro rfl
      exact name.noNul member
  simp only [setName, kept]

section

variable (types : TypeTraits) (buffers : Buffers)

/-- A tensor of a type that exists, with its data in a buffer of the server. -/
structure Lives (tensor : Tensor (BitVec 64)) : Prop where
  known : tensor.type < typeCount
  blocks : types.blckSize tensor.type ≠ 0
  buffer : tensor.buffer ≠ 0 ∧ ∃ buffer, buffers tensor.buffer = some buffer ∧
    Inside buffer tensor.data (nbytes types tensor.type tensor.ne tensor.nb).toNat

variable {types buffers}

theorem inBuffer_of_inside {buffer : Buffer} {data size : BitVec 64}
    (inside : Inside buffer data size.toNat) : inBuffer buffer data size = true := by
  obtain ⟨start, last⟩ := inside
  have memory := buffer.inMemory
  have sum : (data + size).toNat = data.toNat + size.toNat := by
    rw [BitVec.toNat_add, Nat.mod_eq_of_lt (by omega)]
  simp only [inBuffer, Bool.and_eq_true, decide_eq_true_eq, BitVec.le_def, toNat_base_add_size, sum]
  exact ⟨⟨by omega, start⟩, last⟩

variable {graph : ClientGraph}

def ClientGraph.unlinked (graph : ClientGraph) (address : BitVec 64) : Tensor Nat :=
  (graph.record address).toTensor (graph.tensor address).buffer

variable {address : BitVec 64} {builder : Builder}

theorem deserializeTensor_record (lives : Lives types buffers (graph.tensor address)) :
    deserializeTensor types buffers (graph.record address) = .ok (some (graph.unlinked address)) := by
  obtain ⟨some_, buffer, live, inside⟩ := lives.buffer
  have known : ¬ typeCount ≤ (graph.record address).type := BitVec.not_le.mpr lives.known
  have blocks : types.blckSize (graph.record address).type ≠ 0 := lives.blocks
  have hasBuffer : (graph.record address).buffer ≠ 0 := some_
  have here : buffers (graph.record address).buffer = some buffer := live
  have passed : inBuffer buffer (graph.record address).data (nbytes types (graph.record address).type
      (graph.record address).ne (graph.record address).nb) = true := inBuffer_of_inside inside
  rw [deserializeTensor, if_neg known, if_neg blocks, here]
  dsimp only
  rw [if_neg hasBuffer, if_pos passed]
  rfl

def Builder.image (builder : Builder) (address : BitVec 64) : Option Nat :=
  builder.tensorMap.lookup address

structure Builder.Complete (graph : ClientGraph) (builder : Builder) (address : BitVec 64)
    (place : Nat) : Prop where
  tensor : builder.tensors[place]? = some ((graph.tensor address).mapLinks builder.image)
  targets : ∀ link target, (graph.tensor address).link link = some target →
    (builder.image target).isSome

theorem mapLinks_congr {P Q : Type} {tensor : Tensor P} {image other : P → Option Q}
    (same : ∀ link target, tensor.link link = some target → image target = other target) :
    tensor.mapLinks image = tensor.mapLinks other := by
  have sources : (fun i => tensor.src i >>= image) = fun i => tensor.src i >>= other := by
    funext i
    cases points : tensor.src i with
    | none => rfl
    | some target => exact same (.src i) target points
  have view : tensor.viewSrc >>= image = tensor.viewSrc >>= other := by
    cases points : tensor.viewSrc with
    | none => rfl
    | some target => exact same .viewSrc target points
  rw [Tensor.mapLinks, Tensor.mapLinks, sources, view]

theorem Builder.Complete.mono {final : Builder} {place : Nat}
    (complete : builder.Complete graph address place) (grows : builder.Extends final)
    (kept : final.tensors[place]? = builder.tensors[place]?) :
    final.Complete graph address place := by
  have entered (link : Link) (target : BitVec 64)
      (points : (graph.tensor address).link link = some target) :
      builder.image target = final.image target := by
    obtain ⟨other, here⟩ := Option.isSome_iff_exists.mp (complete.targets link target points)
    have after : final.image target = some other := grows target other here
    rw [here, after]
  refine ⟨?_, fun link target points => ?_⟩
  · rw [kept, complete.tensor, mapLinks_congr entered]
  · rw [← entered link target points]
    exact complete.targets link target points

structure Builder.Inv (graph : ClientGraph) (builder : Builder) : Prop where
  reachable : ∀ address place, builder.image address = some place →
    graph.Reachable address
  bound : ∀ address place, builder.image address = some place →
    place < builder.tensors.length
  injective : ∀ address other place, builder.image address = some place →
    builder.image other = some place → address = other
  onto : ∀ place < builder.tensors.length,
    ∃ address, builder.image address = some place

theorem Builder.Inv.push (inv : builder.Inv graph) (reachable : graph.Reachable address)
    (fresh : builder.image address = none) (tensor : Tensor Nat) :
    (builder.push address tensor).Inv graph := by
  have entered (other : BitVec 64) (place : Nat)
      (here : (builder.push address tensor).image other = some place) :
      (other = address ∧ place = builder.tensors.length) ∨
        builder.image other = some place := by
    rw [Builder.image, Builder.push, lookup_cons] at here
    by_cases same : other = address
    · rw [same, beq_self_eq_true] at here
      cases here
      exact .inl ⟨same, rfl⟩
    · rw [beq_eq_false_iff_ne.mpr same] at here
      exact .inr here
  have length : (builder.push address tensor).tensors.length = builder.tensors.length + 1 :=
    length_append
  constructor
  · intro other place here
    rcases entered other place here with ⟨rfl, -⟩ | before
    · exact reachable
    · exact inv.reachable other place before
  · intro other place here
    rw [length]
    rcases entered other place here with ⟨-, rfl⟩ | before
    · exact Nat.lt_succ_self _
    · exact Nat.lt_succ_of_lt (inv.bound other place before)
  · intro one two place here there
    rcases entered one place here with ⟨rfl, rfl⟩ | before <;>
      rcases entered two _ there with ⟨rfl, same⟩ | alsoBefore
    · rfl
    · exact absurd (inv.bound two _ alsoBefore) (lt_irrefl _)
    · rw [same] at before
      exact absurd (inv.bound one _ before) (lt_irrefl _)
    · exact inv.injective one two place before alsoBefore
  · intro place inside
    by_cases last : place = builder.tensors.length
    · exact ⟨address, by rw [last]; exact Builder.lookup_push ..⟩
    · obtain ⟨other, before⟩ := inv.onto place (by omega)
      exact ⟨other, Builder.extends_push fresh tensor other place before⟩

/-- What making tensors does: those below a place stay, and those from another place on are
finished. -/
structure Builder.Grows (graph : ClientGraph) (from_ : Nat) (builder final : Builder) : Prop where
  inv : final.Inv graph
  entered : builder.Extends final
  longer : builder.tensors.length ≤ final.tensors.length
  kept : ∀ place < builder.tensors.length, final.tensors[place]? = builder.tensors[place]?
  complete : ∀ address place, final.image address = some place → from_ ≤ place →
    final.Complete graph address place

theorem Builder.Grows.trans {from_ : Nat} {one two three : Builder} (first : one.Grows graph from_ two)
    (second : two.Grows graph two.tensors.length three) : one.Grows graph from_ three where
  inv := second.inv
  entered := first.entered.trans second.entered
  longer := first.longer.trans second.longer
  kept place inside := by
    rw [second.kept place (lt_of_lt_of_le inside first.longer), first.kept place inside]
  complete address place here later := by
    by_cases new : two.tensors.length ≤ place
    · exact second.complete address place here new
    · have inside : place < two.tensors.length := Nat.lt_of_not_le new
      obtain ⟨other, before⟩ := first.inv.onto place inside
      have same := second.inv.injective address other place here
        (second.entered other place before)
      rw [same]
      exact (first.complete other place before later).mono second.entered
        (second.kept place inside)

/-- The tensor of an address while its pointers are set: those that are not to come are the images. -/
structure Builder.Filling (graph : ClientGraph) (builder : Builder) (address : BitVec 64)
    (place : Nat) (todo : List Link) (tensor : Tensor Nat) : Prop where
  here : builder.tensors[place]? = some tensor
  fields : ∃ src viewSrc, tensor = { graph.unlinked address with src, viewSrc }
  null : ∀ link, (graph.tensor address).link link = none → tensor.link link = none
  set : ∀ link target, link ∉ todo → (graph.tensor address).link link = some target →
    ∃ other, builder.image target = some other ∧ tensor.link link = some other

theorem Tensor.link_setLink {P : Type} (tensor : Tensor P) (link other : Link) (target : P) :
    (tensor.setLink link target).link other =
      if other = link then some target else tensor.link other := by
  cases link with
  | src i =>
    cases other with
    | src j =>
      by_cases same : j = i
      · simp [setLink, Tensor.link]
      · simp [setLink, Tensor.link]
    | viewSrc => rfl
  | viewSrc =>
    cases other with
    | src j => rfl
    | viewSrc => rfl

theorem Builder.Filling.finish {place : Nat} {tensor : Tensor Nat}
    (filled : builder.Filling graph address place [] tensor) :
    (builder.setViewOffs place (graph.tensor address).viewOffs).Complete graph address place := by
  obtain ⟨src, viewSrc, same⟩ := filled.fields
  have image (link : Link) : tensor.link link = (graph.tensor address).link link >>= builder.image := by
    cases points : (graph.tensor address).link link with
    | none => exact filled.null link points
    | some target =>
      obtain ⟨other, entered, set⟩ := filled.set link target not_mem_nil points
      rw [set]
      exact entered.symm
  refine ⟨?_, fun link target points => ?_⟩
  · have sources : tensor.src = fun i => (graph.tensor address).src i >>= builder.image :=
      funext fun i => image (.src i)
    have view : tensor.viewSrc = (graph.tensor address).viewSrc >>= builder.image := image .viewSrc
    have name : (graph.unlinked address).name = (graph.tensor address).name := setName_toWire _
    rw [Builder.setViewOffs, List.getElem?_modify, filled.here]
    rw [same] at sources view ⊢
    dsimp only at sources view
    simp only [sources, view, name]
    rfl
  · obtain ⟨other, entered, -⟩ := filled.set link target not_mem_nil points
    exact Option.isSome_iff_exists.mpr ⟨other, entered⟩

theorem Builder.Grows.modify {final : Builder} {change : Tensor Nat → Tensor Nat}
    (grows : builder.Grows graph (builder.tensors.length + 1) final) :
    builder.Grows graph (builder.tensors.length + 1)
      { final with tensors := final.tensors.modify builder.tensors.length change } := by
  have length : (final.tensors.modify builder.tensors.length change).length =
      final.tensors.length := length_modify ..
  have others (place : Nat) (apart : builder.tensors.length ≠ place) :
      (final.tensors.modify builder.tensors.length change)[place]? = final.tensors[place]? := by
    rw [List.getElem?_modify]
    simp [if_neg apart]
  refine ⟨⟨grows.inv.reachable, ?_, grows.inv.injective, ?_⟩, grows.entered, ?_, ?_, ?_⟩
  · intro address place here
    rw [length]
    exact grows.inv.bound address place here
  · intro place inside
    rw [length] at inside
    exact grows.inv.onto place inside
  · rw [length]
    exact grows.longer
  · intro place inside
    rw [others place (by omega)]
    exact grows.kept place inside
  · intro address place here later
    exact (grows.complete address place here later).mono (fun _ _ entered => entered)
      (others place (by omega))

theorem link_record (address : BitVec 64) (link : Link) :
    (graph.record address).link link = ((graph.tensor address).link link).getD 0 := by
  cases link <;> rfl

theorem createLinks_grows {create : BitVec 64 → Builder → Except Abort (Option Nat × Builder)}
    (reachable : graph.Reachable address)
    (each : ∀ target current, graph.Reachable target → current.Inv graph → builder.Extends current → current.image address = some builder.tensors.length → ∃ other next, create target current = .ok (some other, next) ∧ current.Grows graph current.tensors.length next ∧ next.image target = some other)
    {todo : List Link} {current : Builder}
    (grown : builder.Grows graph (builder.tensors.length + 1) current)
    (own : current.image address = some builder.tensors.length) {tensor : Tensor Nat}
    (filling : current.Filling graph address builder.tensors.length todo tensor) :
    ∃ final tensor, createLinks create (graph.record address) builder.tensors.length todo current =
        .ok (true, final) ∧ builder.Grows graph (builder.tensors.length + 1) final ∧
      final.image address = some builder.tensors.length ∧
      final.Filling graph address builder.tensors.length [] tensor := by
  induction todo generalizing current tensor with
  | nil => exact ⟨current, tensor, rfl, grown, own, filling⟩
  | cons link rest ih =>
    rw [createLinks, link_record]
    cases points : (graph.tensor address).link link with
    | none =>
      refine ih grown own ⟨filling.here, filling.fields, filling.null, ?_⟩
      intro other target outside otherPoints
      refine filling.set other target (fun member => ?_) otherPoints
      rcases mem_cons.mp member with rfl | inRest
      · rw [points] at otherPoints
        contradiction
      · exact outside inRest
    | some target =>
      have reached : graph.Reachable target := reachable.link link points
      have hasId : target ≠ 0 := by
        rintro rfl
        exact graph.null_not_mem reached.mem
      obtain ⟨other, next, made, grows, entered⟩ :=
        each target current reached grown.inv grown.entered own
      rw [Option.getD_some, if_neg hasId, made]
      have inside := grown.inv.bound address _ own
      suffices filled : (next.setLink builder.tensors.length link other).Filling graph address
          builder.tensors.length rest (tensor.setLink link other) from
        ih (grown.trans grows).modify (grows.entered address _ own) filled
      refine ⟨?_, ?_, ?_, ?_⟩
      · rw [Builder.setLink, List.getElem?_modify, grows.kept _ inside, filling.here]
        simp
      · obtain ⟨src, viewSrc, same⟩ := filling.fields
        rw [same]
        cases link <;> exact ⟨_, _, rfl⟩
      · intro otherLink isNull
        rw [Tensor.link_setLink, if_neg, filling.null otherLink isNull]
        rintro rfl
        rw [points] at isNull
        contradiction
      · intro otherLink otherTarget outside otherPoints
        rw [Tensor.link_setLink]
        by_cases same : otherLink = link
        · subst same
          rw [points] at otherPoints
          cases otherPoints
          exact ⟨other, entered, if_pos rfl⟩
        · rw [if_neg same]
          obtain ⟨place, before, set⟩ := filling.set otherLink otherTarget (fun member => by
            rcases mem_cons.mp member with equal | inRest
            · exact same equal
            · exact outside inRest) otherPoints
          exact ⟨place, grows.entered otherTarget place before, set⟩

theorem Builder.Grows.refl (inv : builder.Inv graph) :
    builder.Grows graph builder.tensors.length builder where
  inv := inv
  entered _ _ here := here
  longer := le_refl _
  kept _ _ := rfl
  complete address place here later :=
    absurd (inv.bound address place here) (Nat.not_lt_of_le later)

theorem Builder.grows_push (inv : builder.Inv graph) (reachable : graph.Reachable address)
    (fresh : builder.tensorMap.lookup address = none) (tensor : Tensor Nat) :
    builder.Grows graph (builder.tensors.length + 1) (builder.push address tensor) where
  inv := inv.push reachable fresh tensor
  entered := extends_push fresh tensor
  longer := by rw [push, length_append]; omega
  kept place inside := List.getElem?_append_left inside
  complete other place here later := by
    have bound := (inv.push reachable fresh tensor).bound other place here
    rw [push, length_append, length_singleton] at bound
    omega

theorem Builder.filling_push (builder : Builder) (address : BitVec 64) :
    (builder.push address (graph.unlinked address)).Filling graph address builder.tensors.length links
      (graph.unlinked address) where
  here := List.getElem?_concat_length
  fields := ⟨_, _, rfl⟩
  null link _ := by cases link <;> rfl
  set link _ outside := absurd (mem_links link) outside

theorem Builder.missing_lt_of_entered {current : Builder} {ids : Finset (BitVec 64)}
    (member : address ∈ ids) (fresh : builder.tensorMap.lookup address = none)
    (grown : builder.Extends current) (own : current.image address = some builder.tensors.length)
    (tensor : Tensor Nat) : current.missing ids < builder.missing ids := by
  have pushed : (builder.push address tensor).Extends current := by
    intro other place here
    rw [push, lookup_cons] at here
    by_cases same : other = address
    · rw [same, beq_self_eq_true] at here
      cases here
      rw [same]
      exact own
    · rw [beq_eq_false_iff_ne.mpr same] at here
      exact grown other place here
  exact lt_of_le_of_lt (pushed.missing_le ids) (missing_push_lt member fresh _)

variable {tensorPtrs : BitVec 64 → Option RpcTensor} {ids : Finset (BitVec 64)}

section

variable (lives : ∀ address, graph.Reachable address → Lives types buffers (graph.tensor address))
include lives

theorem createNode_grows
    (found : ∀ address, graph.Reachable address → tensorPtrs address = some (graph.record address))
    (known : ∀ address, graph.Reachable address → address ∈ ids) {fuel : Nat}
    (inv : builder.Inv graph) (enough : builder.missing ids < fuel)
    (reachable : graph.Reachable address) :
    ∃ place next, createNode types buffers tensorPtrs fuel address builder =
        .ok (some place, next) ∧
      builder.Grows graph builder.tensors.length next ∧ next.image address = some place := by
  induction fuel generalizing builder address with
  | zero => exact absurd enough (Nat.not_lt_zero _)
  | succ fuel ih =>
    rw [createNode]
    cases entered : builder.tensorMap.lookup address with
    | some place => exact ⟨place, builder, rfl, .refl inv, entered⟩
    | none =>
      obtain ⟨final, tensor, linked, grows, own, filled⟩ := createLinks_grows reachable
        (fun target current reached currentInv grown own => by
          have less := Builder.missing_lt_of_entered (known address reachable) entered grown own
            (graph.unlinked address)
          exact ih currentInv (by omega) reached)
        (Builder.grows_push inv reachable entered (graph.unlinked address))
        (Builder.lookup_push ..) (builder.filling_push address)
      refine ⟨builder.tensors.length,
        final.setViewOffs builder.tensors.length (graph.tensor address).viewOffs, ?_, ?_, own⟩
      · rw [found address reachable]
        dsimp only
        rw [deserializeTensor_record (lives address reachable), ok_bind]
        dsimp only
        rw [linked, ok_bind]
        rfl
      · have changed : builder.Grows graph (builder.tensors.length + 1)
            (final.setViewOffs builder.tensors.length (graph.tensor address).viewOffs) :=
          grows.modify
        refine ⟨changed.inv, changed.entered, changed.longer, changed.kept, ?_⟩
        intro other place here later
        by_cases same : place = builder.tensors.length
        · subst same
          rw [grows.inv.injective other address _ here own]
          exact filled.finish
        · exact changed.complete other place here (by omega)

theorem createNodes_grows
    (found : ∀ address, graph.Reachable address → tensorPtrs address = some (graph.record address))
    (known : ∀ address, graph.Reachable address → address ∈ ids) {fuel : Nat}
    {nodes : List (BitVec 64)} (reachable : ∀ address ∈ nodes, graph.Reachable address)
    (inv : builder.Inv graph) (enough : builder.missing ids < fuel) :
    ∃ final, createNodes types buffers tensorPtrs fuel nodes builder =
        .ok (some (nodes.map final.image, final)) ∧
      builder.Grows graph builder.tensors.length final ∧
      ∀ address ∈ nodes, (final.image address).isSome := by
  induction nodes generalizing builder with
  | nil =>
    exact ⟨builder, rfl, .refl inv, fun _ member => absurd member not_mem_nil⟩
  | cons address rest ih =>
    obtain ⟨place, next, made, grows, entered⟩ :=
      createNode_grows lives found known inv enough (reachable address mem_cons_self)
    obtain ⟨final, others, restGrows, restEntered⟩ :=
      ih (fun other member => reachable other (mem_cons_of_mem _ member)) grows.inv
        (lt_of_le_of_lt (grows.entered.missing_le ids) enough)
    have stays : final.image address = some place := restGrows.entered address place entered
    refine ⟨final, ?_, grows.trans restGrows, ?_⟩
    · rw [createNodes, made, ok_bind, if_neg (fun failed => by cases failed.1), others, ok_bind,
        Option.map_some, map_cons, stays]
    · intro other member
      rcases mem_cons.mp member with rfl | inRest
      · exact Option.isSome_iff_exists.mpr ⟨place, stays⟩
      · exact restEntered other inRest

end

end

/-- The rebuilt graph is the image of the client's: the nodes are the images of the nodes in their
order, each tensor is the image of one tensor of the graph, and its pointers are the images of the
pointers. -/
structure Isomorphic (graph : ClientGraph) (rebuilt : Graph) (image : BitVec 64 → Option Nat) :
    Prop where
  nodes : rebuilt.nodes = graph.nodes.map image
  defined : ∀ address, (image address).isSome ↔ graph.Reachable address
  injective : ∀ address other place, image address = some place → image other = some place →
    address = other
  onto : ∀ place < rebuilt.tensors.length, ∃ address, image address = some place
  tensors : ∀ address place, image address = some place →
    rebuilt.tensors[place]? = some ((graph.tensor address).mapLinks image)

section

variable {types : TypeTraits} {buffers : Buffers} {graph : ClientGraph}

theorem tensorPtrs_record (device : BitVec 32) {address : BitVec 64}
    (reachable : graph.Reachable address) :
    (graph.message device).tensorPtrs address = some (graph.record address) := by
  have written : graph.record address ∈ (graph.message device).tensors :=
    mem_addNodes.mpr ⟨address, reachable, rfl⟩
  have some_ : ((graph.message device).tensorPtrs address).isSome := by
    rw [GraphMessage.tensorPtrs, List.find?_isSome]
    exact ⟨graph.record address, mem_reverse.mpr written, beq_self_eq_true address⟩
  obtain ⟨record, found⟩ := Option.isSome_iff_exists.mp some_
  obtain ⟨member, id⟩ := GraphMessage.mem_of_tensorPtrs found
  obtain ⟨other, -, rfl⟩ := mem_addNodes.mp member
  have same : other = address := id
  rw [found, same]

theorem build_serialized (lives : ∀ address, graph.Reachable address →
      Lives types buffers (graph.tensor address)) (device : BitVec 32) :
    ∃ rebuilt image, (graph.message device).build types buffers = .ok (some rebuilt) ∧
      Isomorphic graph rebuilt image := by
  have found (address : BitVec 64) (reachable : graph.Reachable address) :
      (graph.message device).tensorPtrs address = some (graph.record address) :=
    tensorPtrs_record device reachable
  have known (address : BitVec 64) (reachable : graph.Reachable address) :
      address ∈ ((addNodes graph).tensors.map RpcTensor.id).toFinset :=
    mem_toFinset.mpr (mem_map.mpr
      ⟨graph.record address, mem_addNodes.mpr ⟨address, reachable, rfl⟩, rfl⟩)
  have start : ({} : Builder).Inv graph :=
    ⟨fun _ _ impossible => (by cases impossible), fun _ _ impossible => (by cases impossible),
      fun _ _ _ impossible => (by cases impossible), fun _ inside => absurd inside (Nat.not_lt_zero _)⟩
  have enough : ({} : Builder).missing ((addNodes graph).tensors.map RpcTensor.id).toFinset <
      (addNodes graph).tensors.length + 1 := by
    have all := (Finset.card_filter_le ((addNodes graph).tensors.map RpcTensor.id).toFinset
      fun id => ({} : Builder).tensorMap.lookup id = none).trans (toFinset_card_le _)
    rw [length_map] at all
    exact Nat.lt_succ_of_le all
  obtain ⟨final, made, grows, nodes⟩ :=
    createNodes_grows lives found known (fun address member => .node member) start enough
  refine ⟨{ nodes := graph.nodes.map final.image, tensors := final.tensors }, final.image, ?_,
    rfl, fun address => ⟨?_, ?_⟩, grows.inv.injective, grows.inv.onto, ?_⟩
  · have all : createNodes types buffers (graph.message device).tensorPtrs
        ((graph.message device).tensors.length + 1) (graph.message device).nodes {} =
          .ok (some (graph.nodes.map final.image, final)) := made
    rw [GraphMessage.build, all]
    rfl
  · intro entered
    obtain ⟨place, here⟩ := Option.isSome_iff_exists.mp entered
    exact grows.inv.reachable address place here
  · intro reachable
    induction reachable with
    | node member => exact nodes _ member
    | link _ link points ih =>
      obtain ⟨place, here⟩ := Option.isSome_iff_exists.mp ih
      exact (grows.complete _ place here (Nat.zero_le _)).targets link _ points
  · intro address place here
    exact (grows.complete address place here (Nat.zero_le _)).tensor

/-- A graph that a client sends is computed as an isomorphic graph. -/
theorem graphCompute_serializeGraph {server : RpcServer} {device : BitVec 32}
    (known : device.toNat < server.storedGraphs.length)
    (lives : ∀ address, graph.Reachable address →
      Lives types server.buffers (graph.tensor address))
    (small : (serializeGraph graph device).length < 2 ^ 31) :
    ∃ rebuilt image, Isomorphic graph rebuilt image ∧
      graphCompute types server (serializeGraph graph device) =
        { accesses := rebuilt.accesses
          outcome := .answered { server with
            storedGraphs := server.storedGraphs.set device.toNat (some rebuilt) } } := by
  obtain ⟨rebuilt, image, built, isomorphic⟩ := build_serialized lives device
  refine ⟨rebuilt, image, isomorphic, ?_⟩
  have inRange : ¬ server.storedGraphs.length ≤ (graph.message device).device.toNat :=
    Nat.not_le_of_lt known
  rw [graphCompute, readGraph_serializeGraph small]
  dsimp only
  rw [if_neg inRange, built]
  rfl

end

def floatTensor (src : Fin 16 → Option (BitVec 64)) : Tensor (BitVec 64) :=
  { type := 0, buffer := 0x1000, ne := fun i => if i = 0 then 4 else 1
    nb := fun i => if i = 0 then 4 else 16, op := 0, opParams := fun _ => 0, flags := 0, src
    viewSrc := none, viewOffs := 0, data := 0x2000
    name := { text := [120], short := by decide, noNul := by decide } }

def squareGraph : ClientGraph where
  addresses := {0x10, 0x20}
  tensor address := if address = 0x20 then
    floatTensor fun i => if i = 0 ∨ i = 1 then some 0x10 else none
    else floatTensor fun _ => none
  nodes := [0x20]
  null_not_mem := by decide
  node_mem address member := by
    rw [mem_singleton.mp member]
    decide
  link_mem := by
    intro address member link target points
    have leaf : target = 0x10 := by
      split at points
      · cases link with
        | viewSrc => cases points
        | src i =>
          change (if i = 0 ∨ i = 1 then some (0x10 : BitVec 64) else none) = some target at points
          split at points <;> cases points
          rfl
      · cases link <;> cases points
    rw [leaf]
    decide

def floatServer : RpcServer :=
  { newServer 1 none with
    buffers := fun address => if address = 0x1000 then some floatBuffer.buffer else none }

theorem graphCompute_square :
    ∃ rebuilt image, Isomorphic squareGraph rebuilt image ∧
      graphCompute floatTypes floatServer (serializeGraph squareGraph 0) =
        { accesses := rebuilt.accesses
          outcome := .answered { floatServer with
            storedGraphs := floatServer.storedGraphs.set 0 (some rebuilt) } } := by
  have size : (nbytes floatTypes 0 (fun i => if i = 0 then 4 else 1)
      (fun i => if i = 0 then 4 else 16)).toNat = 16 := by
    decide
  have placed (src : Fin 16 → Option (BitVec 64)) :
      Lives floatTypes floatServer.buffers (floatTensor src) := by
    refine ⟨show (0 : BitVec 32) < typeCount by decide, show floatTypes.blckSize 0 ≠ 0 by decide,
      show (0x1000 : BitVec 64) ≠ 0 by decide, floatBuffer.buffer, rfl, ?_⟩
    change Inside floatBuffer.buffer 0x2000 (nbytes floatTypes 0 (fun i => if i = 0 then 4 else 1)
      (fun i => if i = 0 then 4 else 16)).toNat
    exact ⟨by decide, by decide⟩
  refine graphCompute_serializeGraph one_pos (fun address _ => ?_) ?_
  · change Lives floatTypes floatServer.buffers (if address = 0x20 then _ else _)
    split
    · exact placed _
    · exact placed _
  · decide +kernel

end LlamaCpp.Rpc
