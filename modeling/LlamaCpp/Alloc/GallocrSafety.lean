import LlamaCpp.Alloc.GallocrCounts

/-!
# The loops of the graph allocator

Leafs and inputs are placed while the references are counted, and the nodes in order
after that.  Before each node, every tensor that was placed and is retained has its
place; while the node is executed this leaves out the one parent whose place it took.
-/

set_option autoImplicit false

namespace LlamaCpp.Alloc

open LlamaCpp.Lib List Option

section

variable (env : Bufts) (graph : GgmlCgraph)

/-- The graphs whose placement is safe: beside their order, no view of operation
`GGML_OP_NONE` is a source, no input is computed in place, and padding wraps no size. -/
structure Allocatable : Prop where
  topological : Topological graph
  sameSize : ∀ a b buft, ggmlAreSameLayout (graph.tensor a) (graph.tensor b) = true →
    env.allocSize buft (graph.tensor a) = env.allocSize buft (graph.tensor b)
  noneViews : ∀ v ∈ references graph graph.nodes,
    (graph.tensor v).viewSrc ≠ none → (graph.tensor v).op ≠ .none
  inputs : ∀ t, (graph.tensor t).flagInput = true → ggmlOpCanInplace (graph.tensor t).op = false
  alignment : ∀ buft, 0 < env.alignment buft
  sizes : ∀ buft t, env.allocSize buft (graph.tensor t) + env.alignment buft ≤ sizeModulus

def Settled (galloc : Gallocr) (t : TensorId) : Prop :=
  Placeable graph t → (galloc.hash t).allocated = true

end

section

variable {env : Bufts} {graph : GgmlCgraph} {galloc next : Gallocr}

variable {t : TensorId} {bufferId : Nat} {pre post : List TensorId} {node : TensorId}

theorem isAllocated_of_settled (settled : Settled graph galloc t) :
    isAllocated graph galloc t = true ∨ ggmlIsView (graph.tensor t) = true := by
  by_cases view : (graph.tensor t).viewSrc = none
  · left
    rw [isAllocated, Bool.or_eq_true]
    by_cases external : (graph.tensor t).data = none
    · exact Or.inr (settled ⟨view, external⟩)
    · exact Or.inl (isSome_iff_ne_none.mpr external)
  · exact Or.inr (isSome_iff_ne_none.mpr view)

theorem allocateNode_settled (settled : Settled graph galloc t)
    (success : allocateNode env graph galloc t bufferId = some next) : next = galloc := by
  unfold allocateNode at success
  split at success
  · rename_i missing
    rw [Bool.and_eq_true, Bool.not_eq_true', Bool.not_eq_true'] at missing
    rcases isAllocated_of_settled settled with has | view
    · rw [missing.1] at has
      cases has
    · rw [missing.2] at view
      cases view
  · cases success
    rfl

structure Grown (env : Bufts) (graph : GgmlCgraph) (t : TensorId) (galloc next : Gallocr) :
    Prop where
  placed : Placed env graph next
  frame : ∀ u, u ≠ t → next.hash u = galloc.hash u
  counters : ∀ u, (next.hash u).nChildren = (galloc.hash u).nChildren ∧
    (next.hash u).nViews = (galloc.hash u).nViews
  stays : Settled graph galloc t → next.hash t = galloc.hash t
  settled : Settled graph next t

theorem allocateNode_grown (allocatable : Allocatable env graph)
    (placed : Placed env graph galloc)
    (plain : ggmlOpCanInplace (graph.tensor t).op = false ∨ ∀ u, (galloc.hash u).nChildren = 0)
    (success : allocateNode env graph galloc t bufferId = some next) :
    Grown env graph t galloc next := by
  have placeable : ∀ u, (galloc.hash u).allocated = true → Placeable graph u := by
    obtain ⟨owners, places⟩ := placed
    exact places.placeable
  have outcome : AllocOutcome env graph galloc t bufferId next := by
    apply allocateNode_outcome placeable _ success
    intro inplace p _ child
    rcases plain with no | zero
    · rw [no] at inplace
      cases inplace
    · rw [zero p] at child
      cases child
  have nextPlaced := placed.allocateNode allocatable.sameSize outcome
  cases outcome with
  | kept has same =>
    subst next
    refine ⟨placed, fun u _ => rfl, fun u => ⟨rfl, rfl⟩, fun _ => rfl, fun wanted => ?_⟩
    rcases has with allocated | view
    · simpa [isAllocated, wanted.2] using allocated
    · exact absurd wanted.1 view
  | reused parent _ _ inplace _ _ _ _ child =>
    rcases plain with no | zero
    · rw [no] at inplace
      cases inplace
    · rw [zero parent] at child
      cases child
  | fresh offset talloc missing wanted _ _ node frame =>
    refine ⟨nextPlaced, frame, fun u => ?_, fun settled => ?_, fun _ => ?_⟩
    · by_cases here : u = t
      · rw [here, node]
        exact ⟨rfl, rfl⟩
      · rw [frame u here]
        exact ⟨rfl, rfl⟩
    · rw [settled wanted] at missing
      cases missing
    · rw [node]

theorem Grown.hash_of_settled {u : TensorId} (grown : Grown env graph t galloc next)
    (settled : Settled graph galloc u) : next.hash u = galloc.hash u := by
  by_cases here : u = t
  · subst u
    exact grown.stays settled
  · exact grown.frame u here

theorem Grown.keeps {u : TensorId} (grown : Grown env graph t galloc next)
    (settled : Settled graph galloc u) : Settled graph next u := by
  intro wanted
  rw [grown.hash_of_settled settled]
  exact settled wanted

theorem cleared_placed : Placed env graph
    ⟨clearedHash, fun buft => dynTallocrReset (env.alignment buft)⟩ := by
  refine ⟨[], {
    alignment := fun _ => rfl
    nodup := nodup_nil
    owned := fun t => by simp [clearedHash]
    tiles := fun buft => dynTallocrReset_tiles (env.alignment buft)
    placeable := fun t allocated => by simp [clearedHash] at allocated }⟩

theorem allocateLeafs_spec (allocatable : Allocatable env graph)
    (leafBufferIds : Option (List Nat)) (i : Nat) (leafs : List TensorId)
    (placed : Placed env graph galloc)
    (zero : ∀ t, (galloc.hash t).nChildren = 0 ∧ (galloc.hash t).nViews = 0)
    (success : allocateLeafs env graph leafBufferIds galloc i leafs = some next) :
    Placed env graph next ∧ (∀ t, (next.hash t).nChildren = 0 ∧ (next.hash t).nViews = 0) ∧
      (∀ t, Settled graph galloc t → Settled graph next t) ∧ ∀ t ∈ leafs, Settled graph next t := by
  induction leafs generalizing galloc i with
  | nil =>
    cases success
    exact ⟨placed, zero, fun t settled => settled, fun t impossible => by cases impossible⟩
  | cons leaf rest ih =>
    simp only [allocateLeafs, bind_eq_bind, bind_eq_some_iff] at success
    obtain ⟨middle, first, later⟩ := success
    have grown := allocateNode_grown allocatable placed (Or.inr fun u => (zero u).1) first
    have counters : ∀ t, (middle.hash t).nChildren = 0 ∧ (middle.hash t).nViews = 0 := by
      intro t
      rw [(grown.counters t).1, (grown.counters t).2]
      exact zero t
    obtain ⟨nextPlaced, nextZero, keeps, settled⟩ := ih (i + 1) grown.placed counters later
    refine ⟨nextPlaced, nextZero, fun t before => keeps t (grown.keeps before), fun t member => ?_⟩
    rcases mem_cons.mp member with here | inRest
    · rw [here]
      exact keeps leaf grown.settled
    · exact settled t inRest

structure CountedUp (env : Bufts) (graph : GgmlCgraph) (children views : TensorId → Nat)
    (galloc next : Gallocr) : Prop where
  placed : Placed env graph next
  counters : ∀ t, (next.hash t).nChildren = (galloc.hash t).nChildren + children t ∧
    (next.hash t).nViews = (galloc.hash t).nViews + views t
  keeps : ∀ t, Settled graph galloc t → Settled graph next t

theorem CountedUp.trans {third : Gallocr} {children views moreChildren moreViews : TensorId → Nat}
    (first : CountedUp env graph children views galloc next)
    (second : CountedUp env graph moreChildren moreViews next third) :
    CountedUp env graph (fun t => children t + moreChildren t) (fun t => views t + moreViews t)
      galloc third where
  placed := second.placed
  counters t := by
    rw [(second.counters t).1, (second.counters t).2, (first.counters t).1, (first.counters t).2]
    omega
  keeps t settled := second.keeps t (first.keeps t settled)

theorem allocateInput_spec (allocatable : Allocatable env graph)
    (placed : Placed env graph galloc)
    (success : allocateInput env graph galloc t bufferId = some next) :
    CountedUp env graph (fun _ => 0) (fun _ => 0) galloc next ∧
      ((graph.tensor t).flagInput = true → Settled graph next t) := by
  unfold allocateInput at success
  split at success
  · rename_i input
    have grown := allocateNode_grown allocatable placed (Or.inl (allocatable.inputs t input)) success
    refine ⟨⟨grown.placed, fun u => ?_, fun u before => grown.keeps before⟩, fun _ => grown.settled⟩
    rw [(grown.counters u).1, (grown.counters u).2]
    simp
  · rename_i noInput
    cases success
    exact ⟨⟨placed, fun u => by simp, fun u before => before⟩, fun input => absurd input noInput⟩

theorem countSource_spec (placed : Placed env graph galloc) (s : TensorId) :
    CountedUp env graph (fun t => if t = s then 1 else 0) (fun _ => 0) galloc
      (galloc.update s { galloc.hash s with nChildren := (galloc.hash s).nChildren + 1 }) := by
  have entry : ∀ u, (galloc.update s { galloc.hash s with
      nChildren := (galloc.hash s).nChildren + 1 }).hash u =
      { galloc.hash u with
        nChildren := (galloc.hash u).nChildren + ((if u = s then 1 else 0 : Nat) : Int) } := by
    intro u
    by_cases here : u = s
    · rw [here]
      simp
    · rw [update_hash_ne _ _ here]
      simp [here]
  refine ⟨placed.recount rfl fun u => ?_, fun u => ?_, fun u settled wanted => ?_⟩
  · rw [entry]
    exact ⟨rfl, rfl, rfl⟩
  · rw [entry]
    simp
  · rw [entry]
    exact settled wanted

theorem countSources_spec (allocatable : Allocatable env graph) (bufferId : Nat)
    (srcs : List TensorId) (placed : Placed env graph galloc)
    (success : countSources env graph galloc bufferId srcs = some next) :
    CountedUp env graph (fun t => srcs.count t) (fun _ => 0) galloc next ∧
      ∀ s ∈ srcs, (graph.tensor s).flagInput = true → Settled graph next s := by
  induction srcs generalizing galloc with
  | nil =>
    cases success
    exact ⟨⟨placed, fun t => by simp, fun t settled => settled⟩,
      fun s impossible => by cases impossible⟩
  | cons s rest ih =>
    simp only [countSources, bind_eq_bind, bind_eq_some_iff] at success
    obtain ⟨middle, first, later⟩ := success
    have counted := countSource_spec placed s
    obtain ⟨input, settled⟩ := allocateInput_spec allocatable counted.placed first
    obtain ⟨others, inputs⟩ := ih input.placed later
    have whole := (counted.trans input).trans others
    refine ⟨⟨whole.placed, fun t => ?_, whole.keeps⟩, fun t member flag => ?_⟩
    · have counters := whole.counters t
      rw [counters.1, counters.2, count_cons]
      simp only [beq_iff_eq, eq_comm (a := s)]
      split
      · simp
        omega
      · simp
    · rcases mem_cons.mp member with here | inRest
      · rw [here] at flag ⊢
        exact others.keeps s (settled flag)
      · exact inputs t inRest flag

/-- A view is counted at the tensor it views, unless its operation is `GGML_OP_NONE`. -/
def countsAt (graph : GgmlCgraph) (t v : TensorId) : Bool :=
  decide ((graph.tensor v).viewSrc = some t ∧ (graph.tensor v).op ≠ .none)

theorem countView_spec (placed : Placed env graph galloc) (node : TensorId) :
    CountedUp env graph (fun _ => 0) (fun t => if countsAt graph t node then 1 else 0) galloc
      (countView graph galloc node) := by
  have entry : ∀ u, (countView graph galloc node).hash u =
      { galloc.hash u with
        nViews := (galloc.hash u).nViews +
          ((if countsAt graph u node then 1 else 0 : Nat) : Int) } := by
    intro u
    unfold countView
    split
    · rename_i viewSrc view
      split
      · rename_i counts
        by_cases here : u = viewSrc
        · rw [here]
          simp [countsAt, view, counts]
        · rw [update_hash_ne _ _ here]
          simp [countsAt, view, Ne.symm here]
      · rename_i counts
        simp [countsAt, counts]
    · rename_i view
      simp [countsAt, view]
  have tallocs : (countView graph galloc node).tallocs = galloc.tallocs := by
    unfold countView
    split
    · split <;> rfl
    · rfl
  refine ⟨placed.recount tallocs fun u => ?_, fun u => ?_, fun u settled wanted => ?_⟩
  · rw [entry]
    exact ⟨rfl, rfl, rfl⟩
  · rw [entry]
    simp
  · rw [entry]
    exact settled wanted

theorem countNodes_spec (allocatable : Allocatable env graph) (nodeBufferIds : Option (List Nat))
    (i : Nat) (nodes : List TensorId) (placed : Placed env graph galloc)
    (success : countNodes env graph nodeBufferIds galloc i nodes = some next) :
    CountedUp env graph (fun t => (references graph nodes).count t)
        (fun t => nodes.countP (countsAt graph t)) galloc next ∧
      ∀ t, t ∈ nodes ∨ t ∈ references graph nodes → (graph.tensor t).flagInput = true →
        Settled graph next t := by
  induction nodes generalizing galloc i with
  | nil =>
    cases success
    refine ⟨⟨placed, fun t => by simp [references], fun t settled => settled⟩, fun t member => ?_⟩
    simp [references] at member
  | cons node rest ih =>
    simp only [countNodes, bind_eq_bind, bind_eq_some_iff] at success
    obtain ⟨middle, first, sources, second, later⟩ := success
    have viewed := @countView_spec env graph galloc placed node
    obtain ⟨input, settled⟩ := allocateInput_spec allocatable viewed.placed first
    obtain ⟨counted, srcInputs⟩ := countSources_spec allocatable _ _ input.placed second
    obtain ⟨others, inputs⟩ := ih (i + 1) counted.placed later
    have whole := ((viewed.trans input).trans counted).trans others
    refine ⟨⟨whole.placed, fun t => ?_, whole.keeps⟩, fun t member flag => ?_⟩
    · have counters := whole.counters t
      rw [counters.1, references_cons, countP_cons]
      constructor
      · simp
      · omega
    · rw [references_cons, mem_cons, mem_append] at member
      rcases member with (here | inRest) | inSrc | inRest
      · rw [here] at flag ⊢
        exact others.keeps node (counted.keeps node (settled flag))
      · exact inputs t (Or.inl inRest) flag
      · exact others.keeps t (srcInputs t inSrc flag)
      · exact inputs t (Or.inr inRest) flag

/-- Tensors that have their places before the nodes after `pre` are placed: leafs, inputs,
earlier nodes and their sources. -/
def PlacedBefore (graph : GgmlCgraph) (pre : List TensorId) (t : TensorId) : Prop :=
  t ∈ graph.leafs ∨
    (graph.tensor t).flagInput = true ∧ (t ∈ graph.nodes ∨ t ∈ references graph graph.nodes) ∨
      t ∈ pre ∨ t ∈ references graph pre

structure LoopInv (env : Bufts) (graph : GgmlCgraph) (pre post : List TensorId)
    (galloc : Gallocr) : Prop where
  placed : Placed env graph galloc
  counted : Counted graph (references graph post) galloc
  settled : ∀ t, PlacedBefore graph pre t → Retained graph (references graph post) t →
    Settled graph galloc t

theorem allocateParents_spec (allocatable : Allocatable env graph) (bufferId : Nat)
    (parents : List TensorId) (placed : Placed env graph galloc)
    (ready : ∀ p ∈ parents, Settled graph galloc p ∨ ggmlOpCanInplace (graph.tensor p).op = false)
    (success : allocateParents env graph galloc bufferId parents = some next) :
    Placed env graph next ∧
      (∀ u, (next.hash u).nChildren = (galloc.hash u).nChildren ∧
        (next.hash u).nViews = (galloc.hash u).nViews) ∧
      (∀ u, Settled graph galloc u ∨ u ∉ parents → next.hash u = galloc.hash u) ∧
      ∀ p ∈ parents, Settled graph next p := by
  induction parents generalizing galloc with
  | nil =>
    cases success
    exact ⟨placed, fun u => ⟨rfl, rfl⟩, fun u _ => rfl, fun p impossible => by cases impossible⟩
  | cons p rest ih =>
    simp only [allocateParents, bind_eq_bind, bind_eq_some_iff] at success
    obtain ⟨middle, first, later⟩ := success
    have grown : Grown env graph p galloc middle := by
      rcases ready p (mem_cons_self ..) with settled | plain
      · have same := allocateNode_settled settled first
        subst middle
        exact ⟨placed, fun u _ => rfl, fun u => ⟨rfl, rfl⟩, fun _ => rfl, settled⟩
      · exact allocateNode_grown allocatable placed (Or.inl plain) first
    have restReady : ∀ q ∈ rest, Settled graph middle q ∨
        ggmlOpCanInplace (graph.tensor q).op = false := by
      intro q member
      rcases ready q (mem_cons_of_mem _ member) with settled | plain
      · exact Or.inl (grown.keeps settled)
      · exact Or.inr plain
    obtain ⟨nextPlaced, counters, same, settled⟩ := ih grown.placed restReady later
    refine ⟨nextPlaced, fun u => ?_, fun u untouched => ?_, fun q member => ?_⟩
    · rw [(counters u).1, (counters u).2]
      exact grown.counters u
    · rcases untouched with before | absent
      · rw [same u (Or.inl (grown.keeps before)), grown.hash_of_settled before]
      · rw [mem_cons, not_or] at absent
        rw [same u (Or.inr absent.2), grown.frame u absent.1]
    · rcases mem_cons.mp member with here | inRest
      · subst q
        intro wanted
        rw [same p (Or.inl grown.settled)]
        exact grown.settled wanted
      · exact settled q inRest

structure LastUse (env : Bufts) (graph : GgmlCgraph) (node : TensorId) (post : List TensorId)
    (galloc : Gallocr) (p : TensorId) : Prop where
  source : p ∈ (graph.tensor node).src
  noOutput : isOutput graph p = false
  noChildren : p ∉ references graph post
  noViews : ∀ v ∈ viewsOf graph p, consumed graph (references graph (node :: post)) v = true
  owner : (galloc.hash node).allocated = true
  place : buftOf env galloc node = buftOf env galloc p ∧
    tensorRange env graph galloc node = tensorRange env graph galloc p

structure NodePlaced (env : Bufts) (graph : GgmlCgraph) (pre : List TensorId) (node : TensorId)
    (post : List TensorId) (galloc mid : Gallocr) (shared : Option TensorId) : Prop where
  placed : Placed env graph mid
  counted : Counted graph (references graph (node :: post)) mid
  unmoved : ∀ t, PlacedBefore graph pre t → (mid.hash t).offset = (galloc.hash t).offset ∧
    (mid.hash t).bufferId = (galloc.hash t).bufferId
  settled : ∀ t, PlacedBefore graph (pre ++ [node]) t →
    Retained graph (references graph (node :: post)) t → Settled graph mid t ∨ shared = some t
  lastUse : ∀ p ∈ shared, LastUse env graph node post mid p

theorem placeNode_spec (allocatable : Allocatable env graph) {mid : Gallocr}
    (split_ : graph.nodes = pre ++ node :: post)
    (inv : LoopInv env graph pre (node :: post) galloc)
    (success : placeNode env graph galloc node bufferId = some mid) :
    ∃ shared, NodePlaced env graph pre node post galloc mid shared := by
  simp only [placeNode, bind_eq_bind, bind_eq_some_iff] at success
  obtain ⟨parents, first, second⟩ := success
  have topological := allocatable.topological
  have pendingSrc : ∀ p ∈ (graph.tensor node).src, p ∈ references graph (node :: post) := by
    intro p source
    exact mem_append_left _ source
  have ready : ∀ p ∈ (graph.tensor node).src,
      Settled graph galloc p ∨ ggmlOpCanInplace (graph.tensor p).op = false := by
    intro p source
    rcases topological.sources pre node post split_ p source with early | ⟨-, leaf⟩
    · exact Or.inl (inv.settled p (Or.inr (Or.inr (Or.inl early)))
        (Or.inr (Or.inl (pendingSrc p source))))
    · rw [leaf]
      exact Or.inr rfl
  obtain ⟨parentsPlaced, counters, same, srcSettled⟩ :=
    allocateParents_spec allocatable bufferId _ inv.placed ready first
  have parentsCounted : Counted graph (references graph (node :: post)) parents := by
    refine ⟨fun t => ?_, fun t => ?_⟩
    · rw [(counters t).1, inv.counted.children]
    · rw [(counters t).2, inv.counted.views]
  -- nothing that was placed before is moved, whether it is a source or not
  have unmoved : ∀ t, PlacedBefore graph pre t → parents.hash t = galloc.hash t := by
    intro t before
    by_cases source : t ∈ (graph.tensor node).src
    · exact same t (Or.inl (inv.settled t before (Or.inr (Or.inl (pendingSrc t source)))))
    · exact same t (Or.inr source)
  have nodeRetained := topological.retained_node split_ (mem_cons_self ..)
  have nodeSettled : PlacedBefore graph pre node → Settled graph parents node := by
    intro before wanted
    rw [unmoved node before]
    exact inv.settled node before nodeRetained wanted
  have parentsSettled : ∀ t, PlacedBefore graph (pre ++ [node]) t → t ≠ node →
      Retained graph (references graph (node :: post)) t → Settled graph parents t := by
    intro t before other retained
    by_cases source : t ∈ (graph.tensor node).src
    · exact srcSettled t source
    · have earlier : PlacedBefore graph pre t := by
        rcases before with leaf | input | isNode | referenced
        · exact Or.inl leaf
        · exact Or.inr (Or.inl input)
        · rw [mem_append, mem_singleton] at isNode
          exact Or.inr (Or.inr (Or.inl (isNode.resolve_right other)))
        · rw [references_append, references_cons, mem_append, mem_append] at referenced
          rcases referenced with inPre | inSrc | impossible
          · exact Or.inr (Or.inr (Or.inr inPre))
          · exact absurd inSrc source
          · cases impossible
      intro wanted
      rw [unmoved t earlier]
      exact inv.settled t earlier retained wanted
  have noSelf : ∀ p ∈ (graph.tensor node).src, p ≠ node := by
    intro p source here
    subst p
    have nodup := topological.nodup
    rw [split_] at nodup
    rcases topological.sources pre node post split_ node source with early | ⟨absent, -⟩
    · exact (nodup_append.mp nodup).2.2 node early node (mem_cons_self ..) rfl
    · exact absent (by rw [split_]; simp)
  have placeable : ∀ u, (parents.hash u).allocated = true → Placeable graph u := by
    obtain ⟨owners, places⟩ := parentsPlaced
    exact places.placeable
  have outcome : AllocOutcome env graph parents node bufferId mid :=
    allocateNode_outcome placeable (fun _ p source _ => noSelf p source) second
  have midPlaced := parentsPlaced.allocateNode allocatable.sameSize outcome
  cases outcome with
  | kept has here =>
    subst mid
    refine ⟨none, parentsPlaced, parentsCounted, fun t before => by rw [unmoved t before]; simp,
      fun t before retained => Or.inl ?_, fun p impossible => by cases impossible⟩
    by_cases isNode : t = node
    · intro wanted
      rw [isNode] at wanted ⊢
      rcases has with allocated | view
      · simpa [isAllocated, wanted.2] using allocated
      · exact absurd wanted.1 view
    · exact parentsSettled t before isNode retained
  | reused parent missing wanted _ source owned noOutput layout lastChild noViews _ entry given
      frame =>
      have counts : ∀ u, (mid.hash u).nChildren = (parents.hash u).nChildren ∧
          (mid.hash u).nViews = (parents.hash u).nViews := by
        intro u
        by_cases isNode : u = node
        · rw [isNode, entry]
          exact ⟨rfl, rfl⟩
        · by_cases isParent : u = parent
          · rw [isParent, given]
            exact ⟨rfl, rfl⟩
          · rw [frame u isNode isParent]
            exact ⟨rfl, rfl⟩
      have late : ¬ PlacedBefore graph pre node := by
        intro before
        rw [nodeSettled before wanted] at missing
        cases missing
      refine ⟨some parent, midPlaced, ?_, fun t before => ?_, fun t before retained => ?_, ?_⟩
      · exact ⟨fun t => by rw [(counts t).1, parentsCounted.children],
          fun t => by rw [(counts t).2, parentsCounted.views]⟩
      · rw [← unmoved t before]
        by_cases isParent : t = parent
        · rw [isParent, given]
          exact ⟨rfl, rfl⟩
        · rw [frame t (fun isNode => late (isNode ▸ before)) isParent]
          exact ⟨rfl, rfl⟩
      · by_cases isParent : t = parent
        · exact Or.inr (by rw [isParent])
        · left
          intro placeableT
          by_cases isNode : t = node
          · rw [isNode, entry]
          · rw [frame t isNode isParent]
            exact parentsSettled t before isNode retained placeableT
      · intro p here
        rw [mem_some_iff] at here
        subst p
        have children := parentsCounted.children parent
        rw [references_cons, count_append] at children
        have inSrc := count_pos_iff.mpr source
        have views := parentsCounted.views parent
        refine ⟨source, noOutput, ?_, ?_, by rw [entry], ?_⟩
        · rw [← count_eq_zero]
          omega
        · intro v member
          by_contra unconsumed
          have : 0 < (viewsOf graph parent).countP fun v =>
              !consumed graph (references graph (node :: post)) v :=
            countP_pos_iff.mpr ⟨v, member, by simpa using unconsumed⟩
          omega
        · exact @layout_sizes env graph mid mid node parent allocatable.sameSize layout
            (by rw [entry, given]) (by rw [entry, given])
  | fresh offset talloc missing wanted _ _ entry frame =>
    have counts : ∀ u, (mid.hash u).nChildren = (parents.hash u).nChildren ∧
        (mid.hash u).nViews = (parents.hash u).nViews := by
      intro u
      by_cases isNode : u = node
      · rw [isNode, entry]
        exact ⟨rfl, rfl⟩
      · rw [frame u isNode]
        exact ⟨rfl, rfl⟩
    refine ⟨none, midPlaced, ?_, fun t before => ?_, fun t before retained => Or.inl ?_,
      fun p impossible => by cases impossible⟩
    · exact ⟨fun t => by rw [(counts t).1, parentsCounted.children],
        fun t => by rw [(counts t).2, parentsCounted.views]⟩
    · have isNot : t ≠ node := by
        intro isNode
        subst t
        rw [nodeSettled before wanted] at missing
        cases missing
      rw [frame t isNot, unmoved t before]
      exact ⟨rfl, rfl⟩
    · intro placeableT
      by_cases isNode : t = node
      · rw [isNode, entry]
      · rw [frame t isNode]
        exact parentsSettled t before isNode retained placeableT

theorem Releases.trans {third : Gallocr} {rest fewer : List TensorId} (sub : fewer ⊆ rest)
    (first : Releases env graph rest galloc next) (second : Releases env graph fewer next third) :
    Releases env graph fewer galloc third where
  placed := second.placed
  counted := second.counted
  places u := ⟨(second.places u).1.trans (first.places u).1,
    (second.places u).2.trans (first.places u).2⟩
  kept u allocated retained := second.kept u (first.kept u allocated (retained.mono sub)) retained

theorem updateParents_releases (allocatable : Allocatable env graph) (srcs later : List TensorId)
    (referenced : ∀ p ∈ srcs, p ∈ references graph graph.nodes)
    (placed : Placed env graph galloc) (counted : Counted graph (srcs ++ later) galloc)
    (success : updateParents env graph galloc srcs = some next) :
    Releases env graph later galloc next := by
  induction srcs generalizing galloc with
  | nil =>
    cases success
    exact ⟨placed, counted, fun u => ⟨rfl, rfl⟩, fun u allocated _ => allocated⟩
  | cons p rest ih =>
    simp only [updateParents, bind_eq_bind, bind_eq_some_iff] at success
    obtain ⟨middle, first, others⟩ := success
    have inGraph := referenced p (mem_cons_self ..)
    have released := updateParent_releases allocatable.topological
      (allocatable.noneViews p inGraph) inGraph placed counted first
    exact released.trans (subset_append_right ..)
      (ih (fun q member => referenced q (mem_cons_of_mem _ member)) released.placed
        released.counted others)

theorem LastUse.not_retained {p : TensorId} (split_ : graph.nodes = pre ++ node :: post)
    (lastUse : LastUse env graph node post galloc p) :
    ¬ Retained graph (references graph post) p := by
  have sub : references graph post ⊆ references graph (node :: post) := by
    exact subset_append_right ..
  rintro (output | pending | ⟨v, member, unconsumed⟩ | ⟨unused, -⟩)
  · rw [lastUse.noOutput] at output
    cases output
  · exact lastUse.noChildren pending
  · have := consumed_mono sub unconsumed
    rw [lastUse.noViews v member] at this
    cases this
  · apply unused
    rw [split_, references_append]
    exact mem_append_right _ (mem_append_left _ lastUse.source)

theorem NodePlaced.next_inv (allocatable : Allocatable env graph) {mid : Gallocr}
    {shared : Option TensorId} (split_ : graph.nodes = pre ++ node :: post)
    (nodePlaced : NodePlaced env graph pre node post galloc mid shared)
    (success : updateParents env graph mid (graph.tensor node).src = some next) :
    LoopInv env graph (pre ++ [node]) post next ∧
      ∀ t, (next.hash t).offset = (mid.hash t).offset ∧
        (next.hash t).bufferId = (mid.hash t).bufferId := by
  have counted := nodePlaced.counted
  have inGraph : ∀ p ∈ (graph.tensor node).src, p ∈ references graph graph.nodes := by
    intro p source
    rw [split_, references_append]
    exact mem_append_right _ (mem_append_left _ source)
  have released := updateParents_releases allocatable _ _ inGraph nodePlaced.placed counted success
  refine ⟨⟨released.placed, released.counted, fun t before retained wanted => ?_⟩, released.places⟩
  have sub : references graph post ⊆ references graph (node :: post) := by
    exact subset_append_right ..
  rcases nodePlaced.settled t before (retained.mono sub) with settled | taken
  · exact released.kept t (settled wanted) retained
  · exact absurd retained ((nodePlaced.lastUse t taken).not_retained split_)

end

end LlamaCpp.Alloc
