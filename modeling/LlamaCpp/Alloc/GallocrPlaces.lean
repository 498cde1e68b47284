import LlamaCpp.Alloc.Gallocr
import Mathlib.Data.List.Pairwise

/-!
# The places of the graph allocator

The regions of the allocated tensors of one buffer type are the live regions of its
allocator.  Placing a tensor adds a region, freeing one gives it back, and a tensor that
takes the place of its parent owns the parent's region from then on.
-/

set_option autoImplicit false

namespace LlamaCpp.Alloc

open LlamaCpp.Lib List Option

section

variable (env : Bufts) (graph : GgmlCgraph)

def Placeable (t : TensorId) : Prop :=
  (graph.tensor t).viewSrc = none ∧ (graph.tensor t).data = none

def buftOf (galloc : Gallocr) (t : TensorId) : BufferType := env.buft (galloc.hash t).bufferId

def tensorRange (galloc : Gallocr) (t : TensorId) : Block :=
  ⟨(galloc.hash t).offset, env.allocSize (buftOf env galloc t) (graph.tensor t)⟩

def tensorRegion (galloc : Gallocr) (t : TensorId) : Block :=
  padded (env.alignment (buftOf env galloc t)) (tensorRange env graph galloc t)

def regions (galloc : Gallocr) (owners : List TensorId) (buft : BufferType) : List Block :=
  (owners.filter fun t => decide (buftOf env galloc t = buft)).map (tensorRegion env graph galloc)

structure Places (galloc : Gallocr) (owners : List TensorId) : Prop where
  alignment : ∀ buft, (galloc.tallocs buft).alignment = env.alignment buft
  nodup : owners.Nodup
  owned : ∀ t, t ∈ owners ↔ (galloc.hash t).allocated = true
  tiles : ∀ buft, Tiles capacity (galloc.tallocs buft).freeBlocks
    (regions env graph galloc owners buft)
  placeable : ∀ t, (galloc.hash t).allocated = true → Placeable graph t

def Placed (galloc : Gallocr) : Prop := ∃ owners, Places env graph galloc owners

end

section

variable {env : Bufts} {graph : GgmlCgraph} {galloc next : Gallocr}

@[simp] theorem update_hash_self (galloc : Gallocr) (t : TensorId) (node : HashNode) :
    (galloc.update t node).hash t = node := by
  simp [Gallocr.update]

theorem update_hash_ne (galloc : Gallocr) {t u : TensorId} (node : HashNode) (other : u ≠ t) :
    (galloc.update t node).hash u = galloc.hash u := by
  simp [Gallocr.update, other]

@[simp] theorem update_tallocs (galloc : Gallocr) (t : TensorId) (node : HashNode) :
    (galloc.update t node).tallocs = galloc.tallocs := rfl

theorem region_congr {t : TensorId} (offset : (next.hash t).offset = (galloc.hash t).offset)
    (bufferId : (next.hash t).bufferId = (galloc.hash t).bufferId) :
    buftOf env next t = buftOf env galloc t ∧ tensorRegion env graph next t = tensorRegion env graph galloc t := by
  have same : buftOf env next t = buftOf env galloc t := by rw [buftOf, buftOf, bufferId]
  refine ⟨same, ?_⟩
  rw [tensorRegion, tensorRegion, tensorRange, tensorRange, same, offset]

theorem regions_congr {owners : List TensorId} (buft : BufferType)
    (offset : ∀ t ∈ owners, (next.hash t).offset = (galloc.hash t).offset)
    (bufferId : ∀ t ∈ owners, (next.hash t).bufferId = (galloc.hash t).bufferId) :
    regions env graph next owners buft = regions env graph galloc owners buft := by
  have filtered : owners.filter (fun t => decide (buftOf env next t = buft)) =
      owners.filter fun t => decide (buftOf env galloc t = buft) := by
    apply filter_congr
    intro t member
    rw [(@region_congr env graph galloc next t (offset t member) (bufferId t member)).1]
  rw [regions, filtered]
  apply map_congr_left
  intro t member
  have inside := mem_of_mem_filter member
  exact (region_congr (offset t inside) (bufferId t inside)).2

theorem Placed.disjoint (placed : Placed env graph galloc) {a b : TensorId} (distinct : a ≠ b)
    (aPlaced : (galloc.hash a).allocated = true) (bPlaced : (galloc.hash b).allocated = true)
    (sameBuffer : buftOf env galloc a = buftOf env galloc b) :
    (tensorRegion env graph galloc a).Disjoint (tensorRegion env graph galloc b) := by
  obtain ⟨owners, places⟩ := placed
  have apart := (places.tiles (buftOf env galloc a)).live_pairwise
  rw [regions, pairwise_map] at apart
  have inFilter : ∀ t, (galloc.hash t).allocated = true →
      buftOf env galloc t = buftOf env galloc a →
      t ∈ owners.filter fun t => decide (buftOf env galloc t = buftOf env galloc a) := by
    intro t allocated same
    rw [mem_filter]
    exact ⟨(places.owned t).mpr allocated, decide_eq_true same⟩
  have : Std.Symm fun x y : TensorId =>
      (tensorRegion env graph galloc x).Disjoint (tensorRegion env graph galloc y) :=
    ⟨fun x y relation => relation.symm⟩
  exact apart.forall (inFilter a aPlaced rfl) (inFilter b bPlaced sameBuffer.symm) distinct

/-- The three outcomes of `ggml_gallocr_allocate_node`: nothing, the place of a parent,
or a new place. -/
inductive AllocOutcome (env : Bufts) (graph : GgmlCgraph) (galloc : Gallocr) (t : TensorId)
    (bufferId : Nat) (next : Gallocr) : Prop
  | kept (has : isAllocated graph galloc t = true ∨ (graph.tensor t).viewSrc ≠ none)
      (same : next = galloc)
  | reused (parent : TensorId) (missing : (galloc.hash t).allocated = false)
      (placeable : Placeable graph t) (inplace : ggmlOpCanInplace (graph.tensor t).op = true)
      (source : parent ∈ (graph.tensor t).src) (owned : (galloc.hash parent).allocated = true)
      (noOutput : isOutput graph parent = false)
      (layout : ggmlAreSameLayout (graph.tensor t) (graph.tensor parent) = true)
      (lastChild : (galloc.hash parent).nChildren = 1) (noViews : (galloc.hash parent).nViews = 0)
      (tallocs : next.tallocs = galloc.tallocs)
      (node : next.hash t = { galloc.hash t with
        allocated := true
        bufferId := (galloc.hash parent).bufferId
        offset := (galloc.hash parent).offset })
      (given : next.hash parent = { galloc.hash parent with allocated := false })
      (frame : ∀ u, u ≠ t → u ≠ parent → next.hash u = galloc.hash u)
  | fresh (offset : Nat) (talloc : DynTallocr) (missing : (galloc.hash t).allocated = false)
      (placeable : Placeable graph t)
      (success : dynTallocrAlloc (galloc.tallocs (env.buft bufferId))
        (env.allocSize (env.buft bufferId) (graph.tensor t)) = some (offset, talloc))
      (tallocs : next.tallocs = Function.update galloc.tallocs (env.buft bufferId) talloc)
      (node : next.hash t = { galloc.hash t with
        allocated := true
        bufferId := bufferId
        offset := offset })
      (frame : ∀ u, u ≠ t → next.hash u = galloc.hash u)

/-- An in-place operation takes the place of one parent with no other use; a view is never
allocated, so the branch for views is not taken. -/
theorem reuseParent_cases {t : TensorId} {parents : List TensorId}
    (noViews : ∀ u, (galloc.hash u).allocated = true → u ≠ t → (graph.tensor u).viewSrc = none)
    (notSelf : ∀ p ∈ parents, (galloc.hash p).nChildren = 1 → p ≠ t) (reused : reuseParent graph galloc t parents = some next) :
    ∃ parent ∈ parents, mayReuse graph galloc t parent = true ∧
      (galloc.hash parent).nChildren = 1 ∧ (galloc.hash parent).nViews = 0 ∧
      next = takePlace galloc t parent := by
  induction parents with
  | nil => cases reused
  | cons parent rest ih =>
    simp only [reuseParent] at reused
    split at reused
    · rename_i fits
      simp only [Bool.and_eq_true, decide_eq_true_eq] at fits
      have owned : (galloc.hash parent).allocated = true := by
        have may := fits.1.1
        simp only [mayReuse, Bool.and_eq_true] at may
        exact may.1.1
      have other := notSelf parent (mem_cons_self ..) fits.1.2
      rw [noViews parent owned other] at reused
      simp only [some.injEq] at reused
      exact ⟨parent, mem_cons_self .., fits.1.1, fits.1.2, fits.2, reused.symm⟩
    · obtain ⟨other, member, facts⟩ :=
        ih (fun p later => notSelf p (mem_cons_of_mem _ later)) reused
      exact ⟨other, mem_cons_of_mem _ member, facts⟩

theorem allocateNode_outcome {t : TensorId} {bufferId : Nat}
    (placeable : ∀ u, (galloc.hash u).allocated = true → Placeable graph u)
    (notSelf : ggmlOpCanInplace (graph.tensor t).op = true →
      ∀ p ∈ (graph.tensor t).src, (galloc.hash p).nChildren = 1 → p ≠ t)
    (success : allocateNode env graph galloc t bufferId = some next) :
    AllocOutcome env graph galloc t bufferId next := by
  unfold allocateNode at success
  split at success
  · rename_i missing
    simp only [Bool.and_eq_true, Bool.not_eq_true', isAllocated, Bool.or_eq_false_iff,
      ggmlIsView] at missing
    obtain ⟨⟨external, unallocated⟩, noView⟩ := missing
    have wanted : Placeable graph t :=
      ⟨not_isSome_iff_eq_none.mp (by simp [noView]),
        not_isSome_iff_eq_none.mp (by simp [external])⟩
    simp only at success
    split at success
    · rename_i taken reused
      split at reused
      · rename_i inplace
        cases success
        have markedChildren : ∀ u, ((galloc.update t
            { galloc.hash t with allocated := true }).hash u).nChildren =
            (galloc.hash u).nChildren := by
          intro u
          by_cases here : u = t
          · rw [here, update_hash_self]
          · rw [update_hash_ne _ _ here]
        obtain ⟨parent, source, may, child, views, result⟩ := reuseParent_cases
          (fun u owned other => by
            rw [update_hash_ne _ _ other] at owned
            exact (placeable u owned).1)
          (fun p member child => notSelf inplace p member ((markedChildren p).symm.trans child))
          reused
        have other : parent ≠ t :=
          notSelf inplace parent source ((markedChildren parent).symm.trans child)
        simp only [mayReuse, Bool.and_eq_true, Bool.not_eq_true', Bool.or_eq_false_iff,
          update_hash_ne _ _ other] at may child views
        refine .reused parent unallocated wanted inplace source may.1.1 may.1.2.1 may.2 child views
          ?_ ?_ ?_ ?_
        · rw [result]
          rfl
        · rw [result, takePlace, update_hash_ne _ _ other.symm, update_hash_self, update_hash_self,
            update_hash_ne _ _ other]
        · rw [result, takePlace, update_hash_self, update_hash_ne _ _ other,
            update_hash_ne _ _ other]
        · intro u notNode notParent
          rw [result, takePlace, update_hash_ne _ _ notParent, update_hash_ne _ _ notNode,
            update_hash_ne _ _ notNode]
      · cases reused
    · split at success
      · rename_i offset talloc placed
        cases success
        refine .fresh offset talloc unallocated wanted placed rfl ?_ ?_
        · simp
        · intro u notNode
          simp [update_hash_ne _ _ notNode]
      · cases success
  · rename_i present
    cases success
    refine .kept ?_ rfl
    simp only [Bool.and_eq_true, Bool.not_eq_true', not_and,
      Bool.not_eq_false] at present
    by_cases has : isAllocated graph galloc t = true
    · exact Or.inl has
    · exact Or.inr (isSome_iff_ne_none.mp (present (Bool.eq_false_iff.mpr has)))

theorem layout_sizes {a b : TensorId}
    (sameSize : ∀ a b buft, ggmlAreSameLayout (graph.tensor a) (graph.tensor b) = true →
      env.allocSize buft (graph.tensor a) = env.allocSize buft (graph.tensor b))
    (layout : ggmlAreSameLayout (graph.tensor a) (graph.tensor b) = true)
    (offset : (next.hash a).offset = (galloc.hash b).offset)
    (bufferId : (next.hash a).bufferId = (galloc.hash b).bufferId) :
    buftOf env next a = buftOf env galloc b ∧
      tensorRange env graph next a = tensorRange env graph galloc b := by
  have same : buftOf env next a = buftOf env galloc b := by rw [buftOf, buftOf, bufferId]
  refine ⟨same, ?_⟩
  rw [tensorRange, tensorRange, same, offset, sameSize a b _ layout]

theorem regions_cons (galloc : Gallocr) (t : TensorId) (owners : List TensorId)
    (buft : BufferType) :
    regions env graph galloc (t :: owners) buft =
      if buftOf env galloc t = buft then
        tensorRegion env graph galloc t :: regions env graph galloc owners buft
      else regions env graph galloc owners buft := by
  simp only [regions]
  split <;> simp_all

theorem regions_perm (galloc : Gallocr) {owners others : List TensorId} (same : owners.Perm others)
    (buft : BufferType) :
    (regions env graph galloc owners buft).Perm (regions env graph galloc others buft) :=
  (same.filter _).map _

theorem Places.fresh {owners : List TensorId} {t : TensorId} {bufferId offset : Nat}
    {talloc : DynTallocr} (places : Places env graph galloc owners)
    (missing : (galloc.hash t).allocated = false) (placeable : Placeable graph t)
    (success : dynTallocrAlloc (galloc.tallocs (env.buft bufferId))
      (env.allocSize (env.buft bufferId) (graph.tensor t)) = some (offset, talloc))
    (tallocs : next.tallocs = Function.update galloc.tallocs (env.buft bufferId) talloc)
    (node : next.hash t = { galloc.hash t with
      allocated := true
      bufferId := bufferId
      offset := offset })
    (frame : ∀ u, u ≠ t → next.hash u = galloc.hash u) : Places env graph next (t :: owners) := by
  have unowned : t ∉ owners := by
    rw [places.owned t, missing]
    exact Bool.false_ne_true
  have others : ∀ u ∈ owners, next.hash u = galloc.hash u := fun u member =>
    frame u fun same => unowned (same ▸ member)
  have tBuft : buftOf env next t = env.buft bufferId := by rw [buftOf, node]
  have old : ∀ buft, regions env graph next owners buft = regions env graph galloc owners buft :=
    fun buft => regions_congr buft (fun u member => by rw [others u member])
      (fun u member => by rw [others u member])
  have keptAlignment : talloc.alignment = env.alignment (env.buft bufferId) := by
    obtain ⟨pre, block, post, -, -, -, result⟩ := dynTallocrAlloc_cases success
    rw [result]
    exact places.alignment _
  refine {
    alignment := ?_
    nodup := nodup_cons.mpr ⟨unowned, places.nodup⟩
    owned := ?_
    tiles := ?_
    placeable := ?_ }
  · intro buft
    rw [tallocs]
    by_cases here : buft = env.buft bufferId
    · rw [here, Function.update_self]
      exact keptAlignment
    · rw [Function.update_of_ne here]
      exact places.alignment buft
  · intro u
    by_cases here : u = t
    · rw [here, node]
      simp
    · rw [frame u here, ← places.owned u]
      simp [here]
  · intro buft
    rw [regions_cons, tBuft, tallocs, old]
    by_cases here : env.buft bufferId = buft
    · subst here
      rw [if_pos rfl, Function.update_self]
      have carved := dynTallocrAlloc_tiles (places.tiles (env.buft bufferId)) success
      rw [places.alignment] at carved
      have own : tensorRegion env graph next t = padded (env.alignment (env.buft bufferId))
          ⟨offset, env.allocSize (env.buft bufferId) (graph.tensor t)⟩ := by
        rw [tensorRegion, tensorRange, tBuft, node]
      rw [own]
      exact carved
    · rw [if_neg here, Function.update_of_ne (Ne.symm here)]
      exact places.tiles buft
  · intro u allocated
    by_cases here : u = t
    · rw [here]
      exact placeable
    · rw [frame u here] at allocated
      exact places.placeable u allocated

theorem Places.reused {owners : List TensorId} {t parent : TensorId}
    (places : Places env graph galloc owners)
    (sameSize : ∀ a b buft, ggmlAreSameLayout (graph.tensor a) (graph.tensor b) = true →
      env.allocSize buft (graph.tensor a) = env.allocSize buft (graph.tensor b))
    (missing : (galloc.hash t).allocated = false) (placeable : Placeable graph t)
    (owned : (galloc.hash parent).allocated = true)
    (layout : ggmlAreSameLayout (graph.tensor t) (graph.tensor parent) = true)
    (tallocs : next.tallocs = galloc.tallocs)
    (node : next.hash t = { galloc.hash t with
      allocated := true
      bufferId := (galloc.hash parent).bufferId
      offset := (galloc.hash parent).offset })
    (given : next.hash parent = { galloc.hash parent with allocated := false })
    (frame : ∀ u, u ≠ t → u ≠ parent → next.hash u = galloc.hash u) :
    Places env graph next (t :: owners.erase parent) := by
  have unowned : t ∉ owners := by
    rw [places.owned t, missing]
    exact Bool.false_ne_true
  have inOwners : parent ∈ owners := (places.owned parent).mpr owned
  have other : parent ≠ t := fun same => unowned (same ▸ inOwners)
  have rest : ∀ u ∈ owners.erase parent, next.hash u = galloc.hash u := by
    intro u member
    have facts := places.nodup.mem_erase_iff.mp member
    exact frame u (fun same => unowned (same ▸ facts.2)) facts.1
  have old : ∀ buft, regions env graph next (owners.erase parent) buft =
      regions env graph galloc (owners.erase parent) buft :=
    fun buft => regions_congr buft (fun u member => by rw [rest u member])
      (fun u member => by rw [rest u member])
  have place := @layout_sizes env graph galloc next t parent sameSize layout
    (by rw [node]) (by rw [node])
  have samePlaces : ∀ buft, (regions env graph galloc owners buft).Perm
      (regions env graph next (t :: owners.erase parent) buft) := by
    intro buft
    have moved := @regions_perm env graph galloc _ _
      (perm_cons_erase inOwners) buft
    rw [regions_cons] at moved
    rw [regions_cons, old, tensorRegion, place.1, place.2]
    exact moved
  refine {
    alignment := by
      rw [tallocs]
      exact places.alignment
    nodup := nodup_cons.mpr
      ⟨fun member => unowned (mem_of_mem_erase member), places.nodup.erase parent⟩
    owned := ?_
    tiles := ?_
    placeable := ?_ }
  · intro u
    rw [mem_cons, places.nodup.mem_erase_iff]
    by_cases isNode : u = t
    · rw [isNode, node]
      simp
    · by_cases isParent : u = parent
      · rw [isParent, given]
        simp [other]
      · rw [frame u isNode isParent, ← places.owned u]
        simp [isNode, isParent]
  · intro buft
    rw [tallocs]
    exact (places.tiles buft).permLive (samePlaces buft)
  · intro u allocated
    by_cases isNode : u = t
    · rw [isNode]
      exact placeable
    · by_cases isParent : u = parent
      · rw [isParent, given] at allocated
        cases allocated
      · rw [frame u isNode isParent] at allocated
        exact places.placeable u allocated

theorem Places.freed {owners : List TensorId} {t : TensorId} {talloc : DynTallocr}
    (places : Places env graph galloc owners) (owned : (galloc.hash t).allocated = true)
    (success : dynTallocrFreeTensor (galloc.tallocs (buftOf env galloc t)) (galloc.hash t).offset
      (env.allocSize (buftOf env galloc t) (graph.tensor t)) = some talloc)
    (tallocs : next.tallocs = Function.update galloc.tallocs (buftOf env galloc t) talloc)
    (given : next.hash t = { galloc.hash t with allocated := false })
    (frame : ∀ u, u ≠ t → next.hash u = galloc.hash u) :
    Places env graph next (owners.erase t) := by
  have inOwners : t ∈ owners := (places.owned t).mpr owned
  have rest : ∀ u ∈ owners.erase t, next.hash u = galloc.hash u := fun u member =>
    frame u (places.nodup.mem_erase_iff.mp member).1
  have old : ∀ buft, regions env graph next (owners.erase t) buft =
      regions env graph galloc (owners.erase t) buft :=
    fun buft => regions_congr buft (fun u member => by rw [rest u member])
      (fun u member => by rw [rest u member])
  have outcome := dynTallocrFreeTensor_outcome success
  have moved : ∀ buft, (regions env graph galloc owners buft).Perm
      (regions env graph galloc (t :: owners.erase t) buft) := fun buft =>
    regions_perm galloc (perm_cons_erase inOwners) buft
  have own : tensorRegion env graph galloc t ∈
      regions env graph galloc owners (buftOf env galloc t) := by
    rw [(moved _).mem_iff, regions_cons, if_pos rfl]
    exact mem_cons_self ..
  refine {
    alignment := ?_
    nodup := places.nodup.erase t
    owned := ?_
    tiles := ?_
    placeable := ?_ }
  · intro buft
    rw [tallocs]
    by_cases here : buft = buftOf env galloc t
    · rw [here, Function.update_self, outcome.2.1]
      exact places.alignment _
    · rw [Function.update_of_ne here]
      exact places.alignment buft
  · intro u
    rw [places.nodup.mem_erase_iff]
    by_cases here : u = t
    · rw [here, given]
      simp
    · rw [frame u here, ← places.owned u]
      simp [here]
  · intro buft
    rw [tallocs, old]
    by_cases here : buft = buftOf env galloc t
    · rw [here, Function.update_self]
      have aligned := places.alignment (buftOf env galloc t)
      have released := dynTallocrFreeTensor_tiles (places.tiles (buftOf env galloc t))
        (by rw [aligned]; exact own) success
      refine released.permLive ?_
      rw [aligned]
      have cons := moved (buftOf env galloc t)
      rw [regions_cons, if_pos rfl] at cons
      exact ((perm_cons_erase own).symm.trans cons).cons_inv
    · rw [Function.update_of_ne here]
      refine (places.tiles buft).permLive ((moved buft).trans ?_)
      rw [regions_cons, if_neg (Ne.symm here)]
  · intro u allocated
    by_cases here : u = t
    · rw [here, given] at allocated
      cases allocated
    · rw [frame u here] at allocated
      exact places.placeable u allocated

theorem Placed.allocateNode {t : TensorId} {bufferId : Nat} (placed : Placed env graph galloc)
    (sameSize : ∀ a b buft, ggmlAreSameLayout (graph.tensor a) (graph.tensor b) = true →
      env.allocSize buft (graph.tensor a) = env.allocSize buft (graph.tensor b))
    (outcome : AllocOutcome env graph galloc t bufferId next) : Placed env graph next := by
  obtain ⟨owners, places⟩ := placed
  cases outcome with
  | kept has same => exact ⟨owners, same ▸ places⟩
  | reused parent missing placeable _ _ owned _ layout _ _ tallocs node given frame =>
    exact ⟨_, places.reused sameSize missing placeable owned layout tallocs node given frame⟩
  | fresh offset talloc missing placeable success tallocs node frame =>
    exact ⟨_, places.fresh missing placeable success tallocs node frame⟩

theorem Placed.recount (placed : Placed env graph galloc)
    (tallocs : next.tallocs = galloc.tallocs)
    (same : ∀ t, (next.hash t).allocated = (galloc.hash t).allocated ∧
      (next.hash t).offset = (galloc.hash t).offset ∧
      (next.hash t).bufferId = (galloc.hash t).bufferId) : Placed env graph next := by
  obtain ⟨owners, places⟩ := placed
  refine ⟨owners, {
    alignment := by
      rw [tallocs]
      exact places.alignment
    nodup := places.nodup
    owned := fun t => by rw [(same t).1, places.owned t]
    tiles := ?_
    placeable := fun t allocated => places.placeable t (by rw [← (same t).1, allocated]) }⟩
  intro buft
  rw [tallocs, regions_congr buft (fun t _ => (same t).2.1) (fun t _ => (same t).2.2)]
  exact places.tiles buft

theorem freeNode_effect {t : TensorId} (placed : Placed env graph galloc)
    (owned : (galloc.hash t).allocated = true)
    (success : freeNode env graph galloc t = some next) :
    Placed env graph next ∧ (∀ u, u ≠ t → next.hash u = galloc.hash u) ∧
      (next.hash t = galloc.hash t ∨
        isOutput graph t = false ∧ next.hash t = { galloc.hash t with allocated := false }) := by
  unfold freeNode at success
  split at success
  · cases success
    exact ⟨placed, fun u _ => rfl, Or.inl rfl⟩
  · rename_i noOutput
    simp only at success
    split at success
    · rename_i talloc freed
      cases success
      have given : ((galloc.update t { galloc.hash t with allocated := false }).hash t) =
          { galloc.hash t with allocated := false } := update_hash_self ..
      have frame : ∀ u, u ≠ t → (galloc.update t { galloc.hash t with allocated := false }).hash u =
          galloc.hash u := fun u other => update_hash_ne _ _ other
      obtain ⟨owners, places⟩ := placed
      exact ⟨⟨_, places.freed owned freed rfl given frame⟩, frame,
        Or.inr ⟨Bool.eq_false_iff.mpr noOutput, given⟩⟩
    · cases success

end

end LlamaCpp.Alloc
