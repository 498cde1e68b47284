import LlamaCpp.Alloc.GallocrSafety

/-!
# Safety of the graph allocator

When a node is placed, every tensor that is live there is allocated, apart from the one
parent whose place the node may have taken.  A tensor that has been placed is not moved
by later nodes, so the final offsets are those the node was placed with.
-/

set_option autoImplicit false

namespace LlamaCpp.Alloc

open LlamaCpp.Lib List Option

section

variable {env : Bufts} {graph : GgmlCgraph} {galloc next : Gallocr}

def Uses (graph : GgmlCgraph) (node t : TensorId) : Prop :=
  t ∈ (graph.tensor node).src ∨
    (∃ v ∈ (graph.tensor node).src, (graph.tensor v).viewSrc = some t) ∨
      (graph.tensor node).viewSrc = some t ∧ (graph.tensor node).op ≠ .none

/-- Live at `node`: placed as a leaf, an input, an earlier node, a source of one or the node
itself, and an output, the node itself or still used by the node or a later one. -/
structure LiveAt (graph : GgmlCgraph) (pre : List TensorId) (node : TensorId)
    (post : List TensorId) (t : TensorId) : Prop where
  placeable : Placeable graph t
  placed : PlacedBefore graph (pre ++ [node]) t
  needed : isOutput graph t = true ∨ t = node ∨ ∃ user ∈ node :: post, Uses graph user t

/-- The source of `node` that may lie where `node` does: `node` is its only use left. -/
structure MayShare (graph : GgmlCgraph) (node : TensorId) (post : List TensorId)
    (p : TensorId) : Prop where
  source : p ∈ (graph.tensor node).src
  noOutput : isOutput graph p = false
  noView : ∀ v ∈ (graph.tensor node).src, (graph.tensor v).viewSrc ≠ some p
  noLaterUse : ∀ user ∈ post, ¬ Uses graph user p

variable {pre post : List TensorId} {node t : TensorId}

theorem retained_of_live (allocatable : Allocatable env graph)
    (split_ : graph.nodes = pre ++ node :: post) (live : LiveAt graph pre node post t) :
    Retained graph (references graph (node :: post)) t := by
  have topological := allocatable.topological
  rcases live.needed with output | here | ⟨user, member, source | ⟨v, source, view⟩ | ⟨view, op⟩⟩
  · exact Or.inl output
  · rw [here]
    exact topological.retained_node split_ (mem_cons_self ..)
  · exact Or.inr (Or.inl (mem_flatMap.mpr ⟨user, member, source⟩))
  · have pending : v ∈ references graph (node :: post) := mem_flatMap.mpr ⟨user, member, source⟩
    have referenced : v ∈ references graph graph.nodes := by
      rw [split_, references_append]
      exact mem_append_right _ pending
    have isView : (graph.tensor v).viewSrc ≠ none := by
      rw [view]
      simp
    refine Or.inr (Or.inr (Or.inl ⟨v, mem_viewsOf.mpr
      ⟨topological.viewsAreNodes v referenced isView, view,
        allocatable.noneViews v referenced isView⟩, ?_⟩))
    simp [consumed, pending]
  · refine Or.inr (Or.inr (Or.inl ⟨user, mem_viewsOf.mpr ⟨?_, view, op⟩,
      topological.unconsumed split_ member⟩))
    rw [split_]
    exact mem_append_right _ member

theorem LastUse.mayShare (allocatable : Allocatable env graph) {p : TensorId}
    (split_ : graph.nodes = pre ++ node :: post) (lastUse : LastUse env graph node post galloc p) :
    MayShare graph node post p := by
  have topological := allocatable.topological
  have unviewed : ∀ v, (graph.tensor v).viewSrc = some p →
      v ∉ references graph (node :: post) := by
    intro v view pending
    have referenced : v ∈ references graph graph.nodes := by
      rw [split_, references_append]
      exact mem_append_right _ pending
    have isView : (graph.tensor v).viewSrc ≠ none := by
      rw [view]
      simp
    have done := lastUse.noViews v (mem_viewsOf.mpr
      ⟨topological.viewsAreNodes v referenced isView, view,
        allocatable.noneViews v referenced isView⟩)
    simp [consumed, pending] at done
  refine ⟨lastUse.source, lastUse.noOutput, fun v source view => ?_, fun user member uses => ?_⟩
  · apply unviewed v view
    exact mem_append_left _ source
  · rcases uses with source | ⟨v, source, view⟩ | ⟨view, op⟩
    · exact lastUse.noChildren (mem_flatMap.mpr ⟨user, member, source⟩)
    · exact unviewed v view
        (mem_flatMap.mpr ⟨user, mem_cons_of_mem _ member, source⟩)
    · have later : user ∈ node :: post := mem_cons_of_mem _ member
      have inViews : user ∈ viewsOf graph p := by
        rw [mem_viewsOf, split_]
        exact ⟨mem_append_right _ later, view, op⟩
      have done := lastUse.noViews user inViews
      rw [topological.unconsumed split_ later] at done
      cases done

/-- At `node` any two live tensors of one buffer lie apart, but for `node` and at most one
source that `node` is the last to use. -/
def SafeAt (env : Bufts) (graph : GgmlCgraph) (final : Gallocr) (pre : List TensorId)
    (node : TensorId) (post : List TensorId) : Prop :=
  ∃ shared : Option TensorId, (∀ p ∈ shared, MayShare graph node post p) ∧
    ∀ a b, LiveAt graph pre node post a → LiveAt graph pre node post b → a ≠ b →
      buftOf env final a = buftOf env final b →
      ¬ (a = node ∧ shared = some b) → ¬ (b = node ∧ shared = some a) →
      (tensorRange env graph final a).Disjoint (tensorRange env graph final b)

theorem range_within (allocatable : Allocatable env graph) (galloc : Gallocr) (t : TensorId)
    {x : Nat} (covered : (tensorRange env graph galloc t).covers x = true) :
    (tensorRegion env graph galloc t).covers x = true := by
  have grows := le_alignedOffset (allocatable.alignment (buftOf env galloc t))
    (allocatable.sizes (buftOf env galloc t) t)
  simp only [Block.covers_iff, tensorRegion, tensorRange, padded] at covered ⊢
  omega

theorem NodePlaced.owner {mid : Gallocr} {shared : Option TensorId}
    (allocatable : Allocatable env graph) (split_ : graph.nodes = pre ++ node :: post)
    (nodePlaced : NodePlaced env graph pre node post galloc mid shared)
    (live : LiveAt graph pre node post t) (notShared : shared ≠ some t) :
    (mid.hash t).allocated = true :=
  (nodePlaced.settled t live.placed (retained_of_live allocatable split_ live)).resolve_right
    notShared live.placeable

theorem NodePlaced.safe {mid final : Gallocr} {shared : Option TensorId}
    (allocatable : Allocatable env graph) (split_ : graph.nodes = pre ++ node :: post)
    (nodePlaced : NodePlaced env graph pre node post galloc mid shared)
    (unmoved : ∀ t, PlacedBefore graph (pre ++ [node]) t → (final.hash t).offset = (mid.hash t).offset ∧ (final.hash t).bufferId = (mid.hash t).bufferId) :
    SafeAt env graph final pre node post := by
  have place : ∀ t, LiveAt graph pre node post t → buftOf env final t = buftOf env mid t ∧
      tensorRange env graph final t = tensorRange env graph mid t := by
    intro t live
    have same := unmoved t live.placed
    have buft : buftOf env final t = buftOf env mid t := by rw [buftOf, buftOf, same.2]
    refine ⟨buft, ?_⟩
    rw [tensorRange, tensorRange, buft, same.1]
  refine ⟨shared, fun p taken => (nodePlaced.lastUse p taken).mayShare allocatable split_, ?_⟩
  intro a b aLive bLive distinct sameBuffer notNodeB notNodeA
  rw [(place a aLive).2, (place b bLive).2]
  rw [(place a aLive).1, (place b bLive).1] at sameBuffer
  have apart : ∀ c d, (mid.hash c).allocated = true → (mid.hash d).allocated = true → c ≠ d →
      buftOf env mid c = buftOf env mid d →
      (tensorRange env graph mid c).Disjoint (tensorRange env graph mid d) :=
    fun c d cOwns dOwns other same x both =>
      nodePlaced.placed.disjoint other cOwns dOwns same x
        ⟨range_within allocatable mid c both.1, range_within allocatable mid d both.2⟩
  -- the node stands for the source whose place it has taken
  by_cases aTaken : shared = some a
  · have taken := nodePlaced.lastUse a aTaken
    have bOwns := nodePlaced.owner allocatable split_ bLive fun bTaken =>
      distinct (some.inj (aTaken.symm.trans bTaken))
    rw [← taken.place.2]
    exact apart node b taken.owner bOwns (fun here => notNodeA ⟨here.symm, aTaken⟩)
      (taken.place.1.trans sameBuffer)
  · have aOwns := nodePlaced.owner allocatable split_ aLive aTaken
    by_cases bTaken : shared = some b
    · have taken := nodePlaced.lastUse b bTaken
      rw [← taken.place.2]
      exact apart a node aOwns taken.owner (fun here => notNodeB ⟨here, bTaken⟩)
        (sameBuffer.trans taken.place.1.symm)
    · exact apart a b aOwns (nodePlaced.owner allocatable split_ bLive bTaken) distinct sameBuffer

theorem PlacedBefore.mono {more : List TensorId} (before : PlacedBefore graph pre t) :
    PlacedBefore graph (pre ++ more) t := by
  rcases before with leaf | input | isNode | referenced
  · exact Or.inl leaf
  · exact Or.inr (Or.inl input)
  · exact Or.inr (Or.inr (Or.inl (mem_append_left _ isNode)))
  · rw [PlacedBefore, references_append]
    exact Or.inr (Or.inr (Or.inr (mem_append_left _ referenced)))

theorem allocateNodes_safe (allocatable : Allocatable env graph)
    (nodeBufferIds : Option (List Nat)) {final : Gallocr} (i : Nat) (pre nodes : List TensorId)
    (split_ : graph.nodes = pre ++ nodes) (inv : LoopInv env graph pre nodes galloc)
    (success : allocateNodes env graph nodeBufferIds galloc i nodes = some final) :
    (∀ t, PlacedBefore graph pre t → (final.hash t).offset = (galloc.hash t).offset ∧
      (final.hash t).bufferId = (galloc.hash t).bufferId) ∧
    ∀ before node after, nodes = before ++ node :: after →
      SafeAt env graph final (pre ++ before) node after := by
  induction nodes generalizing galloc i pre with
  | nil =>
    cases success
    exact ⟨fun t _ => ⟨rfl, rfl⟩, fun before node after impossible => by simp at impossible⟩
  | cons node rest ih =>
    simp only [allocateNodes, bind_eq_bind, bind_eq_some_iff] at success
    obtain ⟨mid, first, updated, second, later⟩ := success
    obtain ⟨shared, nodePlaced⟩ := placeNode_spec allocatable split_ inv first
    obtain ⟨nextInv, sameUpdated⟩ := nodePlaced.next_inv allocatable split_ second
    have nextSplit : graph.nodes = (pre ++ [node]) ++ rest := by
      rw [split_, append_assoc, singleton_append]
    obtain ⟨unmoved, safe⟩ := ih (i + 1) (pre ++ [node]) nextSplit nextInv later
    have fromMid : ∀ t, PlacedBefore graph (pre ++ [node]) t →
        (final.hash t).offset = (mid.hash t).offset ∧
          (final.hash t).bufferId = (mid.hash t).bufferId := fun t before =>
      ⟨(unmoved t before).1.trans (sameUpdated t).1,
        (unmoved t before).2.trans (sameUpdated t).2⟩
    refine ⟨fun t before => ?_, fun before user after here => ?_⟩
    · have same := nodePlaced.unmoved t before
      exact ⟨(fromMid t before.mono).1.trans same.1, (fromMid t before.mono).2.trans same.2⟩
    · cases before with
      | nil =>
        rw [nil_append, List.cons.injEq] at here
        rw [← here.1, ← here.2, append_nil]
        exact nodePlaced.safe allocatable split_ fromMid
      | cons head others =>
        rw [cons_append, List.cons.injEq] at here
        rw [← here.1, ← singleton_append, ← append_assoc]
        exact safe others user after here.2

theorem counted_inv (allocatable : Allocatable env graph)
    (nodeBufferIds leafBufferIds : Option (List Nat)) {leafs : Gallocr}
    (first : allocateLeafs env graph leafBufferIds
      ⟨clearedHash, fun buft => dynTallocrReset (env.alignment buft)⟩ 0 graph.leafs = some leafs)
    (second : countNodes env graph nodeBufferIds leafs 0 graph.nodes = some galloc) :
    LoopInv env graph [] graph.nodes galloc := by
  obtain ⟨leafsPlaced, zero, -, leafsSettled⟩ :=
    allocateLeafs_spec allocatable leafBufferIds 0 graph.leafs cleared_placed
      (fun t => ⟨rfl, rfl⟩) first
  obtain ⟨counted, inputs⟩ := countNodes_spec allocatable nodeBufferIds 0 graph.nodes
    leafsPlaced second
  refine ⟨counted.placed, ⟨fun t => ?_, fun t => ?_⟩, fun t before _ => ?_⟩
  · rw [(counted.counters t).1, (zero t).1, Int.zero_add]
  · rw [(counted.counters t).2, (zero t).2, Int.zero_add, viewsOf, countP_filter]
    congr 1
    apply countP_congr
    simp [countsAt, consumed]
  · rcases before with leaf | ⟨flag, met⟩ | impossible | impossible
    · exact counted.keeps t (leafsSettled t leaf)
    · exact inputs t met flag
    · cases impossible
    · cases impossible

/-- Every node of the graph is safe to execute with the final offsets. -/
theorem allocGraphImpl_safe (env : Bufts) (graph : GgmlCgraph)
    (nodeBufferIds leafBufferIds : Option (List Nat)) (final : Gallocr)
    (allocatable : Allocatable env graph)
    (success : allocGraphImpl env graph nodeBufferIds leafBufferIds = some final)
    (pre post : List TensorId) (node : TensorId) (split_ : graph.nodes = pre ++ node :: post) :
    SafeAt env graph final pre node post := by
  simp only [allocGraphImpl, bind_eq_bind, bind_eq_some_iff] at success
  obtain ⟨leafs, first, counted, second, third⟩ := success
  have inv := counted_inv allocatable nodeBufferIds leafBufferIds first second
  exact (allocateNodes_safe allocatable nodeBufferIds 0 [] graph.nodes rfl inv third).2
    pre node post split_

end

def plainTensor (op : GgmlOp) (src : List TensorId) : GgmlTensor where
  type := 0
  ne := fun _ => 4
  nb := fun _ => 4
  op := op
  flagInput := false
  flagOutput := false
  viewSrc := none
  src := src
  data := none

def mulMat : GgmlOp := .other 27

def viewOp : GgmlOp := .other 39

def tableGraph (tensors : List GgmlTensor) (leafs nodes : List TensorId) : GgmlCgraph where
  tensor t := tensors.getD t (plainTensor mulMat [])
  leafs := leafs
  nodes := nodes

theorem tableGraph_forall (tensors : List GgmlTensor) (leafs nodes : List TensorId)
    {P : GgmlTensor → Prop} (plain : P (plainTensor mulMat [])) (check : ∀ t ∈ tensors, P t)
    (t : TensorId) : P ((tableGraph tensors leafs nodes).tensor t) := by
  simp only [tableGraph, getD_eq_getElem?_getD]
  cases found : tensors[t]? with
  | none => exact plain
  | some tensor => exact check tensor (mem_of_getElem? found)

theorem tableGraph_topological (tensors : List GgmlTensor) (leafs nodes : List TensorId)
    (nodup : nodes.Nodup) (sources : ∀ i : Fin nodes.length,
      ∀ s ∈ ((tableGraph tensors leafs nodes).tensor (nodes.get i)).src,
        s ∈ nodes.take i ∨ s ∉ nodes ∧ ((tableGraph tensors leafs nodes).tensor s).op = .none)
    (viewed : ∀ i : Fin nodes.length,
      ∀ t ∈ ((tableGraph tensors leafs nodes).tensor (nodes.get i)).viewSrc,
        t ∈ nodes.take i ∨ t ∉ nodes)
    (viewsAreNodes : ∀ v ∈ references (tableGraph tensors leafs nodes) nodes,
      ((tableGraph tensors leafs nodes).tensor v).viewSrc ≠ none → v ∈ nodes)
    (viewSrcRoot : ∀ v ∈ tensors, ∀ t ∈ v.viewSrc,
      ((tableGraph tensors leafs nodes).tensor t).viewSrc = none) :
    Topological (tableGraph tensors leafs nodes) where
  nodup := nodup
  sources := by
    rintro pre node post rfl
    simpa [tableGraph] using sources ⟨pre.length, by simp⟩
  viewed := by
    rintro pre node post rfl
    simpa [tableGraph] using viewed ⟨pre.length, by simp⟩
  viewsAreNodes := viewsAreNodes
  viewSrcRoot := tableGraph_forall tensors leafs nodes (by simp [plainTensor]) viewSrcRoot

def oneBuft : Bufts where
  buft _ := 0
  alignment _ := 32
  allocSize _ _ := 64

def inplaceGraph : GgmlCgraph :=
  tableGraph
    [{ plainTensor .none [] with flagInput := true },
      plainTensor mulMat [0],
      { plainTensor viewOp [1] with viewSrc := some 1 },
      plainTensor mulMat [2, 0],
      { plainTensor .add [3, 1] with flagOutput := true }]
    [0] [1, 2, 3, 4]

theorem inplaceGraph_allocatable : Allocatable oneBuft inplaceGraph where
  topological := tableGraph_topological _ _ _ (by decide) (by decide) (by decide) (by decide)
    (by decide)
  sameSize _ _ _ _ := rfl
  noneViews := by decide
  inputs := tableGraph_forall _ _ _
    (P := fun t => t.flagInput = true → ggmlOpCanInplace t.op = false) (by decide) (by decide)
  alignment _ := Nat.zero_lt_succ 31
  sizes _ _ := show 64 + 32 ≤ sizeModulus by decide

theorem inplaceGraph_runs : (allocGraphImpl oneBuft inplaceGraph none none).isSome := by decide

def inplaceFinal : Gallocr := (allocGraphImpl oneBuft inplaceGraph none none).get inplaceGraph_runs

/-- The sum lies where the second product does. -/
theorem allocGraphImpl_safe_at_inplaceGraph :
    (inplaceFinal.hash 4).offset = (inplaceFinal.hash 3).offset ∧
      SafeAt oneBuft inplaceGraph inplaceFinal [1, 2, 3] 4 [] :=
  ⟨by decide, allocGraphImpl_safe oneBuft inplaceGraph none none inplaceFinal
    inplaceGraph_allocatable (some_get _).symm [1, 2, 3] [] 4 rfl⟩

/-- A product with a dependency on it, of operation `GGML_OP_NONE`, and a view; a product
that reads the dependency; another product; and one that reads the view and that product. -/
def dependencyGraph : GgmlCgraph :=
  tableGraph
    [plainTensor mulMat [],
      { plainTensor .none [0] with viewSrc := some 0 },
      { plainTensor viewOp [0] with viewSrc := some 0 },
      plainTensor mulMat [1],
      plainTensor mulMat [3],
      plainTensor mulMat [2, 4]]
    [] [0, 1, 2, 3, 4, 5]

theorem dependencyGraph_topological : Topological dependencyGraph :=
  tableGraph_topological _ _ _ (by decide) (by decide) (by decide) (by decide) (by decide)

theorem dependencyGraph_runs : (allocGraphImpl oneBuft dependencyGraph none none).isSome := by
  decide

def dependencyFinal : Gallocr :=
  (allocGraphImpl oneBuft dependencyGraph none none).get dependencyGraph_runs

/-- The dependency is not counted as a view, but its last child counts a view down: the
first product is freed while a view of it is still to be read. -/
theorem dependencyGraph_overlaps :
    allocGraphImpl oneBuft dependencyGraph none none = some dependencyFinal ∧
      Topological dependencyGraph ∧
      (∀ a b buft, ggmlAreSameLayout (dependencyGraph.tensor a) (dependencyGraph.tensor b) = true →
        oneBuft.allocSize buft (dependencyGraph.tensor a) =
          oneBuft.allocSize buft (dependencyGraph.tensor b)) ∧
      ¬ SafeAt oneBuft dependencyGraph dependencyFinal [0, 1, 2, 3] 4 [5] := by
  refine ⟨(some_get _).symm, dependencyGraph_topological, fun _ _ _ _ => rfl, ?_⟩
  rintro ⟨shared, mayShare, safe⟩
  have first : LiveAt dependencyGraph [0, 1, 2, 3] 4 [5] 0 := {
    placeable := ⟨rfl, rfl⟩
    placed := Or.inr (Or.inr (Or.inl (by decide)))
    needed := Or.inr (Or.inr ⟨5, by decide, Or.inr (Or.inl ⟨2, by decide, rfl⟩)⟩) }
  have node : LiveAt dependencyGraph [0, 1, 2, 3] 4 [5] 4 := {
    placeable := ⟨rfl, rfl⟩
    placed := Or.inr (Or.inr (Or.inl (by decide)))
    needed := Or.inr (Or.inl rfl) }
  have apart := safe 0 4 first node (by decide) rfl (fun here => absurd here.1 (by decide))
    fun taken => absurd (mayShare 0 taken.2).source (by decide)
  exact apart 0 ⟨by decide, by decide⟩

end LlamaCpp.Alloc
