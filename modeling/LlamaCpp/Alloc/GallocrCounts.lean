import LlamaCpp.Alloc.GallocrPlaces

/-!
# The counters of the graph allocator

While the nodes are placed, the number of children of a tensor is the number of
references to it that are still pending, and its number of views is the number of views
of it whose children are not all done.  A tensor is retained as long as a pending
reference, an unconsumed view or its output flag needs it; one that the graph never uses
is retained too.
-/

set_option autoImplicit false

namespace LlamaCpp.Alloc

open LlamaCpp.Lib List

section

variable (env : Bufts) (graph : GgmlCgraph)

def references (nodes : List TensorId) : List TensorId :=
  nodes.flatMap fun node => (graph.tensor node).src

def viewsOf (t : TensorId) : List TensorId :=
  graph.nodes.filter fun v =>
    decide ((graph.tensor v).viewSrc = some t ∧ (graph.tensor v).op ≠ .none)

/-- A graph in topological order whose views are nodes of it, each of a tensor that is not a
view. -/
structure Topological : Prop where
  nodup : graph.nodes.Nodup
  sources : ∀ pre node post, graph.nodes = pre ++ node :: post →
    ∀ s ∈ (graph.tensor node).src, s ∈ pre ∨ s ∉ graph.nodes ∧ (graph.tensor s).op = .none
  viewed : ∀ pre node post, graph.nodes = pre ++ node :: post →
    ∀ t, (graph.tensor node).viewSrc = some t → t ∈ pre ∨ t ∉ graph.nodes
  viewsAreNodes : ∀ v ∈ references graph graph.nodes,
    (graph.tensor v).viewSrc ≠ none → v ∈ graph.nodes
  viewSrcRoot : ∀ v t, (graph.tensor v).viewSrc = some t → (graph.tensor t).viewSrc = none

def consumed (pending : List TensorId) (v : TensorId) : Bool :=
  decide (v ∈ references graph graph.nodes ∧ v ∉ pending)

structure Counted (pending : List TensorId) (galloc : Gallocr) : Prop where
  children : ∀ t, (galloc.hash t).nChildren = pending.count t
  views : ∀ t, (galloc.hash t).nViews = (viewsOf graph t).countP fun v => !consumed graph pending v

def Retained (pending : List TensorId) (t : TensorId) : Prop :=
  isOutput graph t = true ∨ t ∈ pending ∨ (∃ v ∈ viewsOf graph t, consumed graph pending v = false) ∨
    t ∉ references graph graph.nodes ∧ viewsOf graph t = []

end

section

variable {graph : GgmlCgraph}

variable {t v : TensorId} {pre post pending : List TensorId} {galloc : Gallocr} {p : TensorId}
  {rest : List TensorId}

theorem mem_viewsOf : v ∈ viewsOf graph t ↔
    v ∈ graph.nodes ∧ (graph.tensor v).viewSrc = some t ∧ (graph.tensor v).op ≠ .none := by
  simp [viewsOf]

theorem references_append (first second : List TensorId) :
    references graph (first ++ second) = references graph first ++ references graph second :=
  flatMap_append

theorem references_cons (node : TensorId) (rest : List TensorId) :
    references graph (node :: rest) = (graph.tensor node).src ++ references graph rest :=
  flatMap_cons

section

variable (split_ : graph.nodes = pre ++ post)
include split_

section

variable (topological : Topological graph)
include topological

theorem Topological.not_referenced_before (later : t ∈ post) : t ∉ references graph pre := by
  intro referenced
  obtain ⟨user, inPre, source⟩ := mem_flatMap.mp referenced
  obtain ⟨before, after, preSplit⟩ := append_of_mem inPre
  have nodup := topological.nodup
  have whole : graph.nodes = before ++ user :: (after ++ post) := by
    rw [split_, preSplit, append_assoc, cons_append]
  have isNode : t ∈ graph.nodes := by
    rw [split_]
    exact mem_append_right _ later
  rcases topological.sources before user (after ++ post) whole t source with early | ⟨absent, -⟩
  · rw [split_] at nodup
    have inPre' : t ∈ pre := by
      rw [preSplit]
      exact mem_append_left _ early
    exact (nodup_append.mp nodup).2.2 t inPre' t later rfl
  · exact absent isNode

theorem Topological.not_viewed_before (later : t ∈ post)
    (views : (graph.tensor v).viewSrc = some t) : v ∉ pre := by
  intro inPre
  obtain ⟨before, after, preSplit⟩ := append_of_mem inPre
  have nodup := topological.nodup
  have whole : graph.nodes = before ++ v :: (after ++ post) := by
    rw [split_, preSplit, append_assoc, cons_append]
  have isNode : t ∈ graph.nodes := by
    rw [split_]
    exact mem_append_right _ later
  rcases topological.viewed before v (after ++ post) whole t views with early | absent
  · rw [split_] at nodup
    have inPre' : t ∈ pre := by
      rw [preSplit]
      exact mem_append_left _ early
    exact (nodup_append.mp nodup).2.2 t inPre' t later rfl
  · exact absent isNode

theorem Topological.unconsumed (later : v ∈ post) :
    consumed graph (references graph post) v = false := by
  have notBefore := topological.not_referenced_before split_ later
  simp only [consumed, split_, references_append, mem_append, decide_eq_false_iff_not]
  tauto

theorem Topological.retained_node (later : t ∈ post) :
    Retained graph (references graph post) t := by
  have notBefore := topological.not_referenced_before split_ later
  by_cases pending : t ∈ references graph post
  · exact Or.inr (Or.inl pending)
  · have unused : t ∉ references graph graph.nodes := by
      rw [split_, references_append, mem_append]
      tauto
    cases views : viewsOf graph t with
    | nil => exact Or.inr (Or.inr (Or.inr ⟨unused, views⟩))
    | cons v rest =>
      have member : v ∈ viewsOf graph t := by
        rw [views]
        exact mem_cons_self ..
      obtain ⟨isNode, viewed, -⟩ := mem_viewsOf.mp member
      have notEarlier := topological.not_viewed_before split_ later viewed
      rw [split_, mem_append] at isNode
      exact Or.inr (Or.inr (Or.inl
        ⟨v, member, topological.unconsumed split_ (isNode.resolve_left notEarlier)⟩))

end

end

theorem consumed_mono {smaller : List TensorId} (sub : smaller ⊆ pending)
    (unconsumed : consumed graph smaller v = false) : consumed graph pending v = false := by
  simp only [consumed, decide_eq_false_iff_not, not_and, not_not] at unconsumed ⊢
  exact fun referenced => sub (unconsumed referenced)

theorem Retained.mono {smaller : List TensorId} (sub : smaller ⊆ pending)
    (retained : Retained graph smaller t) : Retained graph pending t := by
  rcases retained with output | inPending | ⟨v, member, unconsumed⟩ | unused
  · exact Or.inl output
  · exact Or.inr (Or.inl (sub inPending))
  · exact Or.inr (Or.inr (Or.inl ⟨v, member, consumed_mono sub unconsumed⟩))
  · exact Or.inr (Or.inr (Or.inr unused))

theorem Counted.not_retained (counted : Counted graph pending galloc)
    (noOutput : isOutput graph t = false) (children : (galloc.hash t).nChildren = 0)
    (views : (galloc.hash t).nViews = 0)
    (used : t ∈ references graph graph.nodes ∨ viewsOf graph t ≠ []) :
    ¬ Retained graph pending t := by
  rw [counted.children] at children
  rw [counted.views] at views
  rintro (output | inPending | ⟨v, member, unconsumed⟩ | ⟨unused, noViews⟩)
  · rw [noOutput] at output
    cases output
  · have := count_pos_iff.mpr inPending
    omega
  · have : 0 < (viewsOf graph t).countP fun v => !consumed graph pending v :=
      countP_pos_iff.mpr ⟨v, member, by simp [unconsumed]⟩
    omega
  · rcases used with referenced | viewed
    · exact unused referenced
    · exact viewed noViews

theorem countP_flip {xs : List TensorId} {f g : TensorId → Bool} (nodup : xs.Nodup)
    (member : p ∈ xs) (before : f p = true) (after : g p = false)
    (others : ∀ v, v ≠ p → f v = g v) : xs.countP f = xs.countP g + 1 := by
  have moved := perm_cons_erase member
  have rest : (xs.erase p).countP f = (xs.erase p).countP g := by
    apply countP_congr
    intro v inRest
    rw [others v (nodup.mem_erase_iff.mp inRest).1]
  rw [moved.countP_eq, moved.countP_eq, countP_cons_of_pos before, countP_cons_of_neg
    (by simp [after]), rest]

theorem consumed_cons_ne (p : TensorId) (rest : List TensorId) (other : v ≠ p) :
    consumed graph (p :: rest) v = consumed graph rest v := by
  simp [consumed, other]

theorem views_same (untouched : p ∉ viewsOf graph t ∨ p ∈ rest) :
    ((viewsOf graph t).countP fun v => !consumed graph (p :: rest) v) =
      (viewsOf graph t).countP fun v => !consumed graph rest v := by
  apply countP_congr
  intro v member
  by_cases here : v = p
  · have again : p ∈ rest := untouched.resolve_left fun absent => absent (here ▸ member)
    simp [consumed, here, again]
  · rw [consumed_cons_ne p rest here]

theorem views_done (topological : Topological graph) (member : p ∈ viewsOf graph t)
    (referenced : p ∈ references graph graph.nodes) (last : p ∉ rest) :
    ((viewsOf graph t).countP fun v => !consumed graph (p :: rest) v) =
      ((viewsOf graph t).countP fun v => !consumed graph rest v) + 1 := by
  refine countP_flip (topological.nodup.filter _) member ?_ ?_ ?_
  · simp [consumed]
  · simp [consumed, referenced, last]
  · intro v other
    rw [consumed_cons_ne p rest other]

theorem viewsOf_view (topological : Topological graph) (view : (graph.tensor p).viewSrc = some t) :
    viewsOf graph p = [] := by
  rw [eq_nil_iff_forall_not_mem]
  intro v member
  have root := topological.viewSrcRoot v p (mem_viewsOf.mp member).2.1
  rw [view] at root
  cases root

structure Releases (env : Bufts) (graph : GgmlCgraph) (rest : List TensorId)
    (galloc next : Gallocr) : Prop where
  placed : Placed env graph next
  counted : Counted graph rest next
  places : ∀ u, (next.hash u).offset = (galloc.hash u).offset ∧
    (next.hash u).bufferId = (galloc.hash u).bufferId
  kept : ∀ u, (galloc.hash u).allocated = true → Retained graph rest u →
    (next.hash u).allocated = true

theorem releases_of_free {env : Bufts} {counted next : Gallocr}
    (placed : Placed env graph counted) (upToDate : Counted graph rest counted)
    (same : ∀ u, (counted.hash u).allocated = (galloc.hash u).allocated ∧ (counted.hash u).offset = (galloc.hash u).offset ∧ (counted.hash u).bufferId = (galloc.hash u).bufferId)
    (owned : (counted.hash t).allocated = true) (children : (counted.hash t).nChildren = 0)
    (views : (counted.hash t).nViews = 0)
    (used : t ∈ references graph graph.nodes ∨ viewsOf graph t ≠ [])
    (success : freeNode env graph counted t = some next) : Releases env graph rest galloc next := by
  obtain ⟨nextPlaced, frame, effect⟩ := freeNode_effect placed owned success
  have counters : ∀ u, (next.hash u).nChildren = (counted.hash u).nChildren ∧
      (next.hash u).nViews = (counted.hash u).nViews ∧
      (next.hash u).offset = (counted.hash u).offset ∧
      (next.hash u).bufferId = (counted.hash u).bufferId := by
    intro u
    by_cases here : u = t
    · rw [here]
      rcases effect with unchanged | ⟨-, changed⟩
      · rw [unchanged]
        exact ⟨rfl, rfl, rfl, rfl⟩
      · rw [changed]
        exact ⟨rfl, rfl, rfl, rfl⟩
    · rw [frame u here]
      exact ⟨rfl, rfl, rfl, rfl⟩
  refine {
    placed := nextPlaced
    counted := ⟨fun u => (counters u).1.trans (upToDate.children u),
      fun u => (counters u).2.1.trans (upToDate.views u)⟩
    places := fun u => ⟨(counters u).2.2.1.trans (same u).2.1,
      (counters u).2.2.2.trans (same u).2.2⟩
    kept := ?_ }
  intro u allocated retained
  rw [← (same u).1] at allocated
  by_cases here : u = t
  · subst u
    rcases effect with unchanged | ⟨noOutput, -⟩
    · rw [unchanged]
      exact allocated
    · exact absurd retained (upToDate.not_retained noOutput children views used)
  · rw [frame u here]
    exact allocated

theorem updateParent_releases {env : Bufts} {next : Gallocr} (topological : Topological graph)
    (noneViews : (graph.tensor p).viewSrc ≠ none → (graph.tensor p).op ≠ .none)
    (referenced : p ∈ references graph graph.nodes) (placed : Placed env graph galloc)
    (counted : Counted graph (p :: rest) galloc)
    (success : updateParent env graph galloc p = some next) :
    Releases env graph rest galloc next := by
  unfold updateParent at success
  simp only at success
  generalize decremented : galloc.update p { galloc.hash p with
    nChildren := (galloc.hash p).nChildren - 1 } = fewer at success
  have same : ∀ u, (fewer.hash u).allocated = (galloc.hash u).allocated ∧
      (fewer.hash u).offset = (galloc.hash u).offset ∧
      (fewer.hash u).bufferId = (galloc.hash u).bufferId ∧
      (fewer.hash u).nViews = (galloc.hash u).nViews := by
    intro u
    rw [← decremented]
    by_cases here : u = p
    · rw [here, update_hash_self]
      exact ⟨rfl, rfl, rfl, rfl⟩
    · rw [update_hash_ne _ _ here]
      exact ⟨rfl, rfl, rfl, rfl⟩
  have children : ∀ u, (fewer.hash u).nChildren = rest.count u := by
    intro u
    rw [← decremented]
    by_cases here : u = p
    · rw [here, update_hash_self]
      simp only [counted.children, count_cons_self]
      omega
    · rw [update_hash_ne _ _ here, counted.children, count_cons_of_ne (Ne.symm here)]
  have tallocs : fewer.tallocs = galloc.tallocs := by
    rw [← decremented]
    rfl
  have fewerPlaced : Placed env graph fewer :=
    placed.recount tallocs fun u => ⟨(same u).1, (same u).2.1, (same u).2.2.1⟩
  split at success
  · rename_i done
    have last : p ∉ rest := by
      intro again
      have := count_pos_iff.mpr again
      have := children p
      omega
    split at success
    · rename_i t view
      have isNode := topological.viewsAreNodes p referenced (by rw [view]; simp)
      have inViews : p ∈ viewsOf graph t :=
        mem_viewsOf.mpr ⟨isNode, view, noneViews (by rw [view]; simp)⟩
      generalize counted' : fewer.update t { fewer.hash t with
        nViews := (fewer.hash t).nViews - 1 } = viewed at success
      have viewedSame : ∀ u, (viewed.hash u).allocated = (galloc.hash u).allocated ∧
          (viewed.hash u).offset = (galloc.hash u).offset ∧
          (viewed.hash u).bufferId = (galloc.hash u).bufferId := by
        intro u
        rw [← counted', ← (same u).1, ← (same u).2.1, ← (same u).2.2.1]
        by_cases here : u = t
        · rw [here, update_hash_self]
          exact ⟨rfl, rfl, rfl⟩
        · rw [update_hash_ne _ _ here]
          exact ⟨rfl, rfl, rfl⟩
      have viewedPlaced : Placed env graph viewed :=
        placed.recount (by rw [← counted', update_tallocs, tallocs]) viewedSame
      have upToDate : Counted graph rest viewed := by
        refine ⟨fun u => ?_, fun u => ?_⟩
        · rw [← children u, ← counted']
          by_cases here : u = t
          · rw [here, update_hash_self]
          · rw [update_hash_ne _ _ here]
        · rw [← counted']
          by_cases here : u = t
          · rw [here, update_hash_self]
            simp only
            rw [(same t).2.2.2, counted.views, views_done topological inViews referenced last]
            omega
          · rw [update_hash_ne _ _ here, (same u).2.2.2, counted.views, views_same]
            left
            intro member
            have other := (mem_viewsOf.mp member).2.1
            rw [view, Option.some.injEq] at other
            exact here other.symm
      unfold freeUnused at success
      split at success
      · rename_i unused
        exact releases_of_free viewedPlaced upToDate viewedSame unused.2.2 unused.2.1 unused.1
          (Or.inr (ne_nil_of_mem inViews)) success
      · cases success
        exact {
          placed := viewedPlaced
          counted := upToDate
          places := fun u => (viewedSame u).2
          kept := fun u allocated _ => (viewedSame u).1.trans allocated }
    · rename_i noView
      have upToDate : Counted graph rest fewer := by
        refine ⟨children, fun u => ?_⟩
        rw [(same u).2.2.2, counted.views, views_same]
        left
        intro member
        rw [(mem_viewsOf.mp member).2.1] at noView
        cases noView
      split at success
      · rename_i owned
        exact releases_of_free fewerPlaced upToDate
          (fun u => ⟨(same u).1, (same u).2.1, (same u).2.2.1⟩) owned done.1 done.2
          (Or.inl referenced) success
      · cases success
        exact {
          placed := fewerPlaced
          counted := upToDate
          places := fun u => ⟨(same u).2.1, (same u).2.2.1⟩
          kept := fun u allocated _ => (same u).1.trans allocated }
  · rename_i notDone
    rw [Option.some.injEq] at success
    subst next
    refine {
      placed := fewerPlaced
      counted := ⟨children, fun u => ?_⟩
      places := fun u => ⟨(same u).2.1, (same u).2.2.1⟩
      kept := fun u allocated _ => (same u).1.trans allocated }
    rw [(same u).2.2.2, counted.views, views_same]
    -- a view has no views of its own, so it is its children that are not all done
    by_cases member : p ∈ viewsOf graph u
    · right
      have noViews : (fewer.hash p).nViews = 0 := by
        rw [(same p).2.2.2, counted.views, viewsOf_view topological (mem_viewsOf.mp member).2.1]
        rfl
      by_contra last
      have none_ := count_eq_zero.mpr last
      have := children p
      exact notDone ⟨by omega, noViews⟩
    · exact Or.inl member

end

end LlamaCpp.Alloc
