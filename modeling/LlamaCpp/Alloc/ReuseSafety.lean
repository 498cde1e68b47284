import LlamaCpp.Alloc.GallocrLive
import LlamaCpp.Alloc.Reserve
import LlamaCpp.Lib.FirstFill

/-!
# Safety of reused places

Without a new reservation a tensor gets the first place that stands where it does: among the
leafs, or else among the nodes in order, a node after its sources.  `needsRealloc` compares
sizes for the nodes and their sources only, so it is left open whether the leafs fit and
whether two tensors that the new graph needs at one node have places that meet.
-/

set_option autoImplicit false

namespace LlamaCpp.Alloc

open LlamaCpp.Lib List

section

variable (env : Bufts) (galloc : Reservation) (graph : SourceArrays)

def leafPlaces : List (TensorId × TensorAlloc) := graph.leafs.zip galloc.leafAllocs

/-- The entries of a `src` array that are not `NULL`, with their places. -/
def sourcePlaces (node : TensorId) (nodeAlloc : NodeAlloc) : List (TensorId × TensorAlloc) :=
  (sourceAllocs graph node nodeAlloc).filterMap fun entry => entry.1.map (·, entry.2)

def nodePlaces : List (TensorId × TensorAlloc) :=
  (graph.nodes.zip galloc.nodeAllocs).flatMap fun entry =>
    sourcePlaces graph entry.1 entry.2 ++ [(entry.1, entry.2.dst)]

def placesMet : List (TensorId × TensorAlloc) := leafPlaces galloc graph ++ nodePlaces galloc graph

def sizeAt (t : TensorId) (alloc : TensorAlloc) : Nat :=
  match alloc.bufferId with
  | some bufferId => env.allocSize (env.buft bufferId) (graph.tensor t)
  | none => 0

def rangeAt (t : TensorId) (alloc : TensorAlloc) : Block := ⟨alloc.offset, sizeAt env graph t alloc⟩

def bufferOf (alloc : TensorAlloc) : Option BufferType := alloc.bufferId.map env.buft

def HasRoom (t : TensorId) (alloc : TensorAlloc) : Prop :=
  ∃ buft ∈ bufferOf env alloc, alloc.offset + sizeAt env graph t alloc ≤ galloc.bufferSize buft

instance (t : TensorId) (alloc : TensorAlloc) : Decidable (HasRoom env galloc graph t alloc) :=
  inferInstanceAs (Decidable (∃ buft ∈ bufferOf env alloc, _))

instance : DecidablePred (Placeable graph.toGgmlCgraph) := fun t =>
  inferInstanceAs (Decidable ((graph.tensor t).viewSrc = none ∧ (graph.tensor t).data = none))

/-- The node is computed in the place of a source that nothing else needs any more. -/
structure InPlace (node : TensorId) (post : List TensorId) (p : TensorId)
    (nodeAlloc alloc : TensorAlloc) : Prop where
  inplace : ggmlOpCanInplace (graph.tensor node).op = true
  layout : ggmlAreSameLayout (graph.tensor node) (graph.tensor p) = true
  mayShare : MayShare graph.toGgmlCgraph node post p
  buffer : bufferOf env nodeAlloc = bufferOf env alloc
  offset : nodeAlloc.offset = alloc.offset

def LiveApart (place : Placement) : Prop :=
  ∀ pre node post, graph.nodes = pre ++ node :: post → ∀ s t a b,
    LiveAt graph.toGgmlCgraph pre node post s → LiveAt graph.toGgmlCgraph pre node post t →
    s ≠ t → place s = some a → place t = some b → bufferOf env a = bufferOf env b →
    ¬ (s = node ∧ InPlace env graph node post t a b) →
    ¬ (t = node ∧ InPlace env graph node post s b a) →
    (rangeAt env graph s a).Disjoint (rangeAt env graph t b)

/-- The graph is given the kept places, each tensor fits its own, and what is live at one
node lies apart. -/
def SafeReuse (nBuffers : Nat) : Prop :=
  ∃ placement, allocGraph env nBuffers galloc graph = some (galloc, placement) ∧
    (∀ pre node post, graph.nodes = pre ++ node :: post → ∀ t,
      LiveAt graph.toGgmlCgraph pre node post t → (placement t).isSome) ∧
    (∀ t alloc, placement t = some alloc → sizeAt env graph t alloc ≤ alloc.sizeMax) ∧
    LiveApart env graph placement

/-- What `needsRealloc` leaves unchecked: the leafs fit, every place is in a buffer, and the
places that stand for two tensors live at one node do not meet. -/
structure PlacesServe : Prop where
  leafs : ∀ t alloc, Placeable graph.toGgmlCgraph t → (leafPlaces galloc graph).lookup t = some alloc →
    sizeAt env graph t alloc ≤ alloc.sizeMax
  room : ∀ t alloc, Placeable graph.toGgmlCgraph t → (placesMet galloc graph).lookup t = some alloc →
    HasRoom env galloc graph t alloc
  apart : LiveApart env graph fun t => (placesMet galloc graph).lookup t

end

section

variable {env : Bufts} {nBuffers : Nat} {galloc : Reservation} {graph : SourceArrays}

theorem initTensor_eq (placement : Placement) (entry : TensorId × TensorAlloc) :
    initTensor env galloc graph placement entry.1 entry.2 =
      fill (Placeable graph.toGgmlCgraph) (HasRoom env galloc graph) placement entry := by
  obtain ⟨t, alloc⟩ := entry
  by_cases view : (graph.tensor t).viewSrc = none
  · by_cases external : (graph.tensor t).data = none
    · have wanted : Placeable graph.toGgmlCgraph t := ⟨view, external⟩
      by_cases empty : placement t = none
      · cases buffer : alloc.bufferId with
        | none => simp [initTensor, fill, view, external, wanted, empty, HasRoom, bufferOf, buffer]
        | some bufferId =>
          simp [initTensor, fill, view, external, wanted, empty, HasRoom, bufferOf, sizeAt, buffer]
      · have given := Option.isSome_iff_ne_none.mpr empty
        simp [initTensor, fill, empty]
    · have given := Option.isSome_iff_ne_none.mpr external
      have unwanted : ¬ Placeable graph.toGgmlCgraph t := fun wanted => external wanted.2
      simp [initTensor, fill, given, unwanted]
  · have given := Option.isSome_iff_ne_none.mpr view
    have unwanted : ¬ Placeable graph.toGgmlCgraph t := fun wanted => view wanted.1
    simp [initTensor, fill, given, unwanted]

theorem initLeafs_eq (placement : Placement) (leafs : List TensorId) (allocs : List TensorAlloc) :
    initLeafs env galloc graph placement leafs allocs =
      (leafs.zip allocs).foldlM (fill (Placeable graph.toGgmlCgraph) (HasRoom env galloc graph))
        placement := by
  induction leafs generalizing placement allocs with
  | nil => rfl
  | cons leaf leafs ih =>
    cases allocs with
    | nil => rfl
    | cons alloc allocs =>
      rw [initLeafs, zip_cons_cons, initTensor_eq placement (leaf, alloc)]
      apply bind_congr
      intro next
      exact ih next allocs

theorem initSources_eq (placement : Placement) (sources : List (Option TensorId × TensorAlloc)) :
    initSources env galloc graph placement sources =
      (sources.filterMap fun entry => entry.1.map (·, entry.2)).foldlM
        (fill (Placeable graph.toGgmlCgraph) (HasRoom env galloc graph)) placement := by
  induction sources generalizing placement with
  | nil => rfl
  | cons entry rest ih =>
    obtain ⟨source, alloc⟩ := entry
    cases source with
    | none => exact ih placement
    | some src =>
      simp only [initSources]
      rw [initTensor_eq placement (src, alloc)]
      apply bind_congr
      intro next
      exact ih next

theorem initNodes_eq (placement : Placement) (nodes : List TensorId) (allocs : List NodeAlloc) :
    initNodes env galloc graph placement nodes allocs =
      ((nodes.zip allocs).flatMap fun entry =>
        sourcePlaces graph entry.1 entry.2 ++ [(entry.1, entry.2.dst)]).foldlM
        (fill (Placeable graph.toGgmlCgraph) (HasRoom env galloc graph)) placement := by
  induction nodes generalizing placement allocs with
  | nil => rfl
  | cons node nodes ih =>
    cases allocs with
    | nil => rfl
    | cons nodeAlloc allocs =>
      rw [initNodes, zip_cons_cons, flatMap_cons, foldlM_append,
        foldlM_append, initSources_eq, bind_assoc]
      apply bind_congr
      intro sources
      rw [foldlM_cons, initTensor_eq sources (node, nodeAlloc.dst), bind_assoc]
      apply bind_congr
      intro next
      exact ih next allocs

theorem allocGraph_kept_iff (kept : needsRealloc env nBuffers galloc graph = false)
    (next : Reservation) (placement : Placement) :
    allocGraph env nBuffers galloc graph = some (next, placement) ↔
      next = galloc ∧
      (∀ t alloc, Placeable graph.toGgmlCgraph t →
        (placesMet galloc graph).lookup t = some alloc → HasRoom env galloc graph t alloc) ∧
      placement = filled (Placeable graph.toGgmlCgraph) (fun _ => none)
        (placesMet galloc graph) := by
  have run := @fill_run_iff _ _ _ (Placeable graph.toGgmlCgraph) _ (HasRoom env galloc graph) _
    (placesMet galloc graph) (fun _ => none) placement
  have loops : allocGraph env nBuffers galloc graph =
      ((placesMet galloc graph).foldlM
        (fill (Placeable graph.toGgmlCgraph) (HasRoom env galloc graph)) fun _ => none).bind
          fun placement => some (galloc, placement) := by
    rw [allocGraph, readied, kept, placesMet, leafPlaces, nodePlaces,
      foldlM_append, ← initLeafs_eq]
    simp [← initNodes_eq, Option.bind_assoc]
  rw [loops, Option.bind_eq_some_iff]
  constructor
  · rintro ⟨result, done, here⟩
    rw [Option.some.injEq, Prod.mk.injEq] at here
    rw [here.2] at done
    obtain ⟨room, table⟩ := run.mp done
    exact ⟨here.1.symm, fun t alloc wanted => room t alloc wanted rfl, table⟩
  · rintro ⟨rfl, room, table⟩
    exact ⟨placement, run.mpr ⟨fun t alloc wanted _ => room t alloc wanted, table⟩, rfl⟩

theorem kept_lengths (kept : needsRealloc env nBuffers galloc graph = false) :
    galloc.nodeAllocs.length = graph.nodes.length ∧
      galloc.leafAllocs.length = graph.leafs.length := by
  rw [needsRealloc] at kept
  split at kept
  · cases kept
  · rename_i sameNodes
    split at kept
    · cases kept
    · rename_i sameLeafs
      exact ⟨not_not.mp sameNodes, not_not.mp sameLeafs⟩

variable {node t : TensorId} {alloc : TensorAlloc} {reserved : SourceArrays} {final : Gallocr}

theorem kept_nodeFits (kept : needsRealloc env nBuffers galloc graph = false)
    {nodeAlloc : NodeAlloc} (member : (node, nodeAlloc) ∈ graph.nodes.zip galloc.nodeAllocs) :
    nodeFits env nBuffers graph node nodeAlloc = true := by
  obtain ⟨sameNodes, sameLeafs⟩ := kept_lengths kept
  rw [needsRealloc, if_neg (not_not.mpr sameNodes), if_neg (not_not.mpr sameLeafs),
    Bool.not_eq_false', all_eq_true] at kept
  exact kept _ member

theorem nodeNeedsRealloc_fits (valid : nodeNeedsRealloc env nBuffers graph t alloc = true)
    (wanted : Placeable graph.toGgmlCgraph t) : sizeAt env graph t alloc ≤ alloc.sizeMax := by
  rw [nodeNeedsRealloc, if_neg (by simp [wanted.1, wanted.2])] at valid
  rw [sizeAt]
  cases buffer : alloc.bufferId with
  | none => exact Nat.zero_le _
  | some bufferId =>
    simp only [buffer] at valid
    split at valid
    · cases valid
    · exact of_decide_eq_true valid

theorem mem_nodePlaces : (t, alloc) ∈ nodePlaces galloc graph ↔
      ∃ node nodeAlloc, (node, nodeAlloc) ∈ graph.nodes.zip galloc.nodeAllocs ∧
        ((∃ j, graph.srcAt node j = some t ∧ nodeAlloc.src j = alloc) ∨
          node = t ∧ nodeAlloc.dst = alloc) := by
  have source : ∀ node nodeAlloc, (t, alloc) ∈ sourcePlaces graph node nodeAlloc ↔
      ∃ j, graph.srcAt node j = some t ∧ nodeAlloc.src j = alloc := by
    intro node nodeAlloc
    rw [sourcePlaces, mem_filterMap]
    constructor
    · rintro ⟨entry, member, found⟩
      obtain ⟨j, rfl⟩ := mem_ofFn.mp member
      obtain ⟨src, here, same⟩ := Option.map_eq_some_iff.mp found
      rw [Prod.mk.injEq] at same
      exact ⟨j, here.trans (congrArg some same.1), same.2⟩
    · rintro ⟨j, here, place⟩
      exact ⟨(graph.srcAt node j, nodeAlloc.src j), mem_ofFn.mpr ⟨j, rfl⟩,
        Option.map_eq_some_iff.mpr ⟨t, here, by rw [place]⟩⟩
  simp [nodePlaces, source, eq_comm (a := t), eq_comm (a := alloc)]

theorem nodePlaces_fit (kept : needsRealloc env nBuffers galloc graph = false)
    (member : (t, alloc) ∈ nodePlaces galloc graph) (wanted : Placeable graph.toGgmlCgraph t) :
    sizeAt env graph t alloc ≤ alloc.sizeMax := by
  obtain ⟨node, nodeAlloc, here, source | dst⟩ := mem_nodePlaces.mp member
  · have fits := kept_nodeFits kept here
    obtain ⟨j, src, place⟩ := source
    rw [nodeFits, Bool.and_eq_true, all_eq_true] at fits
    have valid := fits.2 j (mem_finRange j)
    simp only [src, place] at valid
    exact nodeNeedsRealloc_fits valid wanted
  · have fits := kept_nodeFits kept here
    rw [nodeFits, Bool.and_eq_true, dst.1, dst.2] at fits
    exact nodeNeedsRealloc_fits fits.1 wanted

theorem mem_zip_of_mem {α β : Type*} {as : List α} {bs : List β} (same : bs.length = as.length)
    {a : α} (member : a ∈ as) : ∃ b, (a, b) ∈ as.zip bs := by
  rw [← map_fst_zip (le_of_eq same.symm), mem_map] at member
  obtain ⟨⟨first, b⟩, inZip, rfl⟩ := member
  exact ⟨b, inZip⟩

section

variable (kept : needsRealloc env nBuffers galloc graph = false)
include kept

theorem node_has_place
    (member : t ∈ graph.nodes) : ∃ alloc, (t, alloc) ∈ nodePlaces galloc graph := by
  obtain ⟨nodeAlloc, here⟩ := mem_zip_of_mem (kept_lengths kept).1 member
  exact ⟨nodeAlloc.dst, mem_nodePlaces.mpr ⟨t, nodeAlloc, here, Or.inr ⟨rfl, rfl⟩⟩⟩

theorem source_has_place
    {nodes : List TensorId} (inGraph : nodes ⊆ graph.nodes)
    (member : t ∈ references graph.toGgmlCgraph nodes) :
    ∃ alloc, (t, alloc) ∈ nodePlaces galloc graph := by
  obtain ⟨node, isNode, source⟩ := mem_flatMap.mp member
  obtain ⟨nodeAlloc, here⟩ := mem_zip_of_mem (kept_lengths kept).1 (inGraph isNode)
  rw [graph.srcs, reduceOption_mem_iff, mem_ofFn] at source
  obtain ⟨j, src⟩ := source
  exact ⟨nodeAlloc.src j, mem_nodePlaces.mpr ⟨node, nodeAlloc, here, Or.inl ⟨j, src, rfl⟩⟩⟩

theorem live_has_place
    {pre post : List TensorId} (split_ : graph.nodes = pre ++ node :: post)
    (live : LiveAt graph.toGgmlCgraph pre node post t) :
    ((placesMet galloc graph).lookup t).isSome := by
  have isPrefix : pre ++ [node] ⊆ graph.nodes := by
    rw [split_, append_cons pre node post]
    exact subset_append_left _ _
  have inNodes : (∃ alloc, (t, alloc) ∈ nodePlaces galloc graph) →
      ((placesMet galloc graph).lookup t).isSome := by
    rintro ⟨alloc, member⟩
    rw [lookup_isSome_iff]
    exact ⟨(t, alloc), mem_append_right _ member, beq_self_eq_true t⟩
  rcases live.placed with leaf | ⟨-, isNode | source⟩ | isNode | source
  · obtain ⟨alloc, member⟩ := mem_zip_of_mem (kept_lengths kept).2 leaf
    rw [lookup_isSome_iff]
    exact ⟨(t, alloc), mem_append_left _ member, beq_self_eq_true t⟩
  · exact inNodes (node_has_place kept isNode)
  · exact inNodes (source_has_place kept (List.Subset.refl _) source)
  · exact inNodes (node_has_place kept (isPrefix isNode))
  · exact inNodes (source_has_place kept isPrefix source)

theorem placesMet_fit
    (leafs : ∀ t alloc, Placeable graph.toGgmlCgraph t → (leafPlaces galloc graph).lookup t = some alloc → sizeAt env graph t alloc ≤ alloc.sizeMax)
    (wanted : Placeable graph.toGgmlCgraph t)
    (found : (placesMet galloc graph).lookup t = some alloc) :
    sizeAt env graph t alloc ≤ alloc.sizeMax := by
  rw [placesMet, lookup_append, Option.or_eq_some_iff] at found
  rcases found with leaf | ⟨-, node⟩
  · exact leafs t alloc wanted leaf
  · obtain ⟨before, after, split_, -⟩ := lookup_eq_some_iff.mp node
    refine nodePlaces_fit kept ?_ wanted
    rw [split_]
    exact mem_append_right _ (mem_cons_self ..)

end

theorem LiveApart.congr {first second : Placement}
    (same : ∀ t, Placeable graph.toGgmlCgraph t → first t = second t)
    (apart : LiveApart env graph first) : LiveApart env graph second := by
  intro pre node post split_ s t a b sLive tLive distinct sPlace tPlace
  exact apart pre node post split_ s t a b sLive tLive distinct
    ((same s sLive.placeable).trans sPlace) ((same t tLive.placeable).trans tPlace)

theorem filled_of_wanted (wanted : Placeable graph.toGgmlCgraph t) :
    filled (Placeable graph.toGgmlCgraph) (fun _ => none) (placesMet galloc graph) t =
      (placesMet galloc graph).lookup t := by
  rw [filled, if_pos wanted, Option.none_or]

theorem SafeReuse.placesServe (kept : needsRealloc env nBuffers galloc graph = false)
    (safe : SafeReuse env galloc graph nBuffers) : PlacesServe env galloc graph := by
  obtain ⟨placement, success, -, fits, apart⟩ := safe
  obtain ⟨-, room, table⟩ := (allocGraph_kept_iff kept galloc placement).mp success
  refine ⟨fun t alloc wanted found => fits t alloc ?_, room, apart.congr fun t wanted => ?_⟩
  · rw [table, filled_of_wanted wanted, placesMet, lookup_append, found, Option.some_or]
  · rw [table, filled_of_wanted wanted]

theorem PlacesServe.safeReuse (kept : needsRealloc env nBuffers galloc graph = false)
    (serve : PlacesServe env galloc graph) : SafeReuse env galloc graph nBuffers := by
  refine ⟨_, (allocGraph_kept_iff kept galloc _).mpr ⟨rfl, serve.room, rfl⟩, ?_, ?_, ?_⟩
  · intro pre node post split_ t live
    rw [filled_of_wanted live.placeable]
    exact live_has_place kept split_ live
  · intro t alloc found
    by_cases wanted : Placeable graph.toGgmlCgraph t
    · rw [filled_of_wanted wanted] at found
      exact placesMet_fit kept serve.leafs wanted found
    · rw [filled, if_neg wanted] at found
      cases found
  · exact serve.apart.congr fun t wanted => (filled_of_wanted wanted).symm

end

def sourceArrays (tensors : List GgmlTensor) (leafs nodes : List TensorId)
    (short : ∀ t ∈ tensors,
      t.src = (List.ofFn fun j : Fin ggmlMaxSrc => t.src[j.val]?).reduceOption) :
    SourceArrays where
  toGgmlCgraph := tableGraph tensors leafs nodes
  srcAt t j := ((tableGraph tensors leafs nodes).tensor t).src[j.val]?
  srcs t := tableGraph_forall tensors leafs nodes
    (P := fun t => t.src = (List.ofFn fun j : Fin ggmlMaxSrc => t.src[j.val]?).reduceOption)
    (by decide) short t

def chainGraph : SourceArrays :=
  sourceArrays [plainTensor .none [], plainTensor mulMat [0, 0], plainTensor mulMat [1, 1],
    plainTensor mulMat [1, 2]] [0] [1, 2, 3] (by decide)

def skipGraph : SourceArrays :=
  sourceArrays [plainTensor .none [], plainTensor mulMat [0, 0], plainTensor mulMat [0, 1],
    plainTensor mulMat [1, 2]] [0] [1, 2, 3] (by decide)

def noReservation : Reservation := ⟨[], [], fun _ => 0⟩

theorem chainGraph_reserved : (reserve oneBuft noReservation chainGraph).isSome := by decide

def chainReservation : Reservation :=
  (reserve oneBuft noReservation chainGraph).get chainGraph_reserved

theorem skipGraph_topological : Topological skipGraph.toGgmlCgraph :=
  tableGraph_topological _ _ _ (by decide) (by decide) (by decide) (by decide) (by decide)

end LlamaCpp.Alloc
