import Mathlib.Tactic.Ring
import Mathlib.Tactic.Linarith
import LlamaCpp.Sched.CopyInputs
import LlamaCpp.Sched.SplitInvariant

/-!
# Which expert slices are on the device

A host weight is copied by the split that lists it, for the ids of that split's
first node.  A node that reads the copy finds the slices of its own ids there
exactly if they are among those, or among the few bytes copied as padding, or
were there before.
-/

set_option autoImplicit false

namespace LlamaCpp.Sched

open LlamaCpp.Lib List

section Slices

variable {t : Tensor} {source : Nat → UInt8} {nExpert : Nat}

/-- The bytes that one call of `copy_experts` copies. -/
def InRun (t : Tensor) (nExpert : Nat) (run : Nat × Nat) (p : Nat) : Prop :=
  run.1 * t.nb 2 ≤ p ∧
    p < run.1 * t.nb 2 + ((run.2 - run.1 + 1) * t.nb 2 + paddingEnd t nExpert run.2)

theorem foldlM_copyExperts {runs : List (Nat × Nat)} {memory contents : Nat → UInt8}
    (copied : runs.foldlM (copyExperts t source nExpert) memory = some contents) (p : Nat) :
    ((∃ run ∈ runs, InRun t nExpert run p) → contents p = source p) ∧
      ((¬ ∃ run ∈ runs, InRun t nExpert run p) → contents p = memory p) := by
  induction runs generalizing memory with
  | nil =>
    cases copied
    exact ⟨fun ⟨_, member, _⟩ => (nomatch member), fun _ => rfl⟩
  | cons run rest ih =>
    obtain ⟨middle, first, copied⟩ := Option.bind_eq_some_iff.mp copied
    obtain ⟨inside, outside⟩ := ih copied
    simp only [copyExperts, tensorSet, Option.ite_none_right_eq_some, Option.some.injEq] at first
    obtain ⟨-, rfl⟩ := first
    constructor
    · rintro ⟨other, member, here⟩
      by_cases later : ∃ run ∈ rest, InRun t nExpert run p
      · exact inside later
      · rcases mem_cons.mp member with same | member
        · rw [outside later]
          exact if_pos (same ▸ here)
        · exact absurd ⟨other, member, here⟩ later
    · intro none
      rw [outside fun ⟨other, member, here⟩ => none ⟨other, mem_cons_of_mem _ member, here⟩]
      exact if_neg fun here => none ⟨run, mem_cons_self, here⟩

theorem getBit_uniqueIdsOf {ids : List Int} (inRange : ∀ id ∈ ids, 0 ≤ id ∧ id < nExpert) (e : Nat) :
    getBit (uniqueIdsOf nExpert ids) e = true ↔ (e : Int) ∈ ids := by
  have inside : ∀ id ∈ ids.map Int.toNat, id / 32 <
      (List.replicate ((nExpert + 31) / 32) 0#32).length := by
    intro id member
    obtain ⟨value, listed, rfl⟩ := mem_map.mp member
    obtain ⟨low, high⟩ := inRange value listed
    rw [length_replicate]
    omega
  rw [uniqueIdsOf, getBit_foldl_setBit _ inside, getBit_replicate, Bool.false_or, decide_eq_true_eq,
    mem_map]
  constructor
  · rintro ⟨value, listed, rfl⟩
    rwa [Int.toNat_of_nonneg (inRange value listed).1]
  · exact fun listed => ⟨e, listed, Int.toNat_natCast e⟩

theorem paddingEnd_le (t : Tensor) (nExpert lastId : Nat) : paddingEnd t nExpert lastId ≤ t.nb 2 := by
  unfold paddingEnd
  split
  · exact Nat.min_le_left ..
  · exact Nat.zero_le _

theorem run_width (size : Nat) {a b : Nat} (ordered : a ≤ b) :
    a * size + (b - a + 1) * size = (b + 1) * size := by
  rw [← Nat.add_mul]
  congr 1
  omega

/-- The byte at `r` in slice `e` is copied if the slice is selected or, up to 512 bytes, if the
slice before it is. -/
theorem inRun_slice {ids : List Int} (inRange : ∀ id ∈ ids, 0 ≤ id ∧ id < nExpert) {e r : Nat}
    (inside : r < t.nb 2) :
    (∃ run ∈ expertRuns nExpert (uniqueIdsOf nExpert ids), InRun t nExpert run (e * t.nb 2 + r)) ↔
      (e : Int) ∈ ids ∨ (0 < e ∧ e < nExpert ∧ ((e - 1 : Nat) : Int) ∈ ids ∧ r < 512) := by
  have bit := getBit_uniqueIdsOf inRange
  have bound : ∀ k : Nat, (k : Int) ∈ ids → k < nExpert := fun k member => by
    have both := inRange k member
    omega
  constructor
  · rintro ⟨⟨a, b⟩, member, here⟩
    have low : a * t.nb 2 ≤ e * t.nb 2 + r := here.1
    have high : e * t.nb 2 + r < a * t.nb 2 + ((b - a + 1) * t.nb 2 + paddingEnd t nExpert b) := here.2
    obtain ⟨ordered, below, members, -⟩ := runsBelow_sound member
    have first : a ≤ e := by
      by_contra beyond
      have apart := Nat.mul_le_mul_right (t.nb 2) (Nat.lt_of_not_le beyond)
      rw [Nat.succ_mul] at apart
      omega
    by_cases within : e ≤ b
    · exact .inl ((bit e).mp (members e first within))
    · right
      have padding := paddingEnd_le t nExpert b
      have width := run_width (t.nb 2) ordered
      have next : e = b + 1 := by
        by_contra farther
        have apart := Nat.mul_le_mul_right (t.nb 2) (show (b + 1).succ ≤ e by omega)
        rw [Nat.succ_mul] at apart
        omega
      subst next
      have padded : r < paddingEnd t nExpert b := by omega
      unfold paddingEnd at padded
      split at padded
      · exact ⟨Nat.succ_pos b, by omega, (bit _).mp (members b ordered (Nat.le_refl b)), by omega⟩
      · omega
  · have covered : ∀ a b, a ≤ b → a ≤ e → (e * t.nb 2 + r < (b + 1) * t.nb 2 + paddingEnd t nExpert b) →
        InRun t nExpert (a, b) (e * t.nb 2 + r) := by
      intro a b ordered low high
      have start := Nat.mul_le_mul_right (t.nb 2) low
      have width := run_width (t.nb 2) ordered
      refine ⟨Nat.le_add_right_of_le start, ?_⟩
      show e * t.nb 2 + r < a * t.nb 2 + ((b - a + 1) * t.nb 2 + paddingEnd t nExpert b)
      omega
    have inner : ∀ b, e ≤ b → e * t.nb 2 + r < (b + 1) * t.nb 2 + paddingEnd t nExpert b := by
      intro b high
      have stop : (e + 1) * t.nb 2 ≤ (b + 1) * t.nb 2 := Nat.mul_le_mul_right _ (by omega)
      rw [Nat.add_mul e 1] at stop
      exact Nat.lt_add_right _ (by omega)
    rintro (selected | ⟨positive, below, before, small⟩)
    · obtain ⟨a, b, member, low, high⟩ := runsBelow_complete (bound e selected) ((bit e).mpr selected)
      exact ⟨(a, b), member, covered a b (Nat.le_trans low high) low (inner b high)⟩
    · obtain ⟨a, b, member, low, high⟩ := runsBelow_complete (bound _ before) ((bit _).mpr before)
      refine ⟨(a, b), member, covered a b (Nat.le_trans low high) (by omega) ?_⟩
      by_cases within : e ≤ b
      · exact inner b within
      · -- the slice follows the run
        have next : b + 1 = e := by omega
        rw [next]
        have padded : paddingEnd t nExpert b = min (t.nb 2) 512 := if_pos (by omega)
        omega

end Slices

variable {sched : BackendSched} {graph : CGraph} {place : Placement} {st : SplitState}

def ownIds (graph : CGraph) (place : Placement) (st : SplitState) (node : TensorId) : List Int :=
  match st.srcs node (idsPlace (graph.tensor node).op) with
  | some ref => idsOf (graph.tensor ref.origin) (place.bytes ref.origin)
  | none => []

/-- `node->src[0]->ne[2]` -/
def expertCount (graph : CGraph) (st : SplitState) (node : TensorId) : Nat :=
  match st.srcs node ⟨0, ggmlMaxSrc_pos⟩ with
  | some ref => (graph.tensor ref.origin).ne 2
  | none => 0

def Covers (sched : BackendSched) (graph : CGraph) (place : Placement) (st : SplitState)
    (split : Split) (input : TensorId) (p : Nat) : Prop :=
  match activeNode sched graph place split input with
  | some node =>
    if 1 < (graph.tensor input).ne 2 then
      ∃ run ∈ expertRuns (expertCount graph st node)
          (uniqueIdsOf (expertCount graph st node) (ownIds graph place st node)),
        InRun (graph.tensor input) (expertCount graph st node) run p
    else p < (graph.tensor input).nbytes
  | none => p < (graph.tensor input).nbytes

def IdsKnown (graph : CGraph) (place : Placement) (st : SplitState) (split : Split)
    (state : CopyState) : Prop :=
  ∀ ref node, state.lastIds = some ref → firstNode graph split = some node →
    state.uniqueIds = uniqueIdsOf (expertCount graph st node) (ownIds graph place st node)

structure InputCopied (sched : BackendSched) (graph : CGraph) (place : Placement) (st : SplitState)
    (split : Split) (input : TensorId) (state next : CopyState) : Prop where
  covered : ∀ p, Covers sched graph place st split input p →
    next.memory input split.backendId p = place.bytes input p
  uncovered : ∀ p, ¬ Covers sched graph place st split input p →
    next.memory input split.backendId p = state.memory input split.backendId p
  others : ∀ t b, ¬ (t = input ∧ b = split.backendId) → next.memory t b = state.memory t b
  idsKnown : IdsKnown graph place st split next

variable {split : Split} {input : TensorId} {state next : CopyState} {node : TensorId}

theorem copyWhole_copied (known : IdsKnown graph place st split state)
    (whole : ∀ p, Covers sched graph place st split input p ↔ p < (graph.tensor input).nbytes)
    (copied : copyWhole graph place split state input = some next) :
    InputCopied sched graph place st split input state next := by
  unfold copyWhole tensorSet at copied
  rw [if_pos (by rw [zero_add])] at copied
  cases copied
  refine ⟨fun p covers => ?_, fun p uncovered => ?_, fun t b other => if_neg other, known⟩
  · have here := (whole p).mp covers
    simp [CopyState.write, here]
  · have outside : ¬ p < (graph.tensor input).nbytes := fun here => uncovered ((whole p).mpr here)
    simp [CopyState.write, outside]

theorem activeNode_eq_some (active : activeNode sched graph place split input = some node) :
    firstNode graph split = some node ∧ isMoe (graph.tensor node).op = true := by
  unfold activeNode at active
  split at active
  · cases active
  · split at active
    · exact Option.filter_eq_some_iff.mp active
    · cases active

theorem origin_idsTensor {later : List TensorId} {idsRef : TensorRef}
    (copies : ∀ t ∈ later, st.copies t split.backendId sched.curCopy = some (.copy t split.backendId sched.curCopy)) :
    (idsTensor sched st split later idsRef).origin = idsRef.origin := by
  unfold idsTensor
  split
  · rename_i input found
    have same := List.find?_some found
    rw [decide_eq_true_eq, copies input (mem_of_find?_eq_some found), Option.some.injEq] at same
    rw [← same]
    rfl
  · rfl

theorem refreshIds_known {ref : TensorRef} (known : IdsKnown graph place st split state)
    (first : firstNode graph split = some node)
    (own : idsOf (graph.tensor ref.origin) (place.bytes ref.origin) = ownIds graph place st node) :
    (refreshIds graph place (expertCount graph st node) state ref).uniqueIds =
        uniqueIdsOf (expertCount graph st node) (ownIds graph place st node) ∧
      (refreshIds graph place (expertCount graph st node) state ref).memory = state.memory ∧
      IdsKnown graph place st split (refreshIds graph place (expertCount graph st node) state ref) := by
  unfold refreshIds
  split
  · rename_i same
    exact ⟨known ref node same first, rfl, known⟩
  · refine ⟨by rw [own], rfl, fun other node' _ first' => ?_⟩
    rw [first, Option.some.injEq] at first'
    subst first'
    rw [own]

theorem copyInput_copied {later : List TensorId} (known : IdsKnown graph place st split state)
    (copies : ∀ t ∈ later, st.copies t split.backendId sched.curCopy = some (.copy t split.backendId sched.curCopy))
    (copied : copyInput sched graph place st split later state input = some next) :
    InputCopied sched graph place st split input state next := by
  unfold copyInput at copied
  cases active : activeNode sched graph place split input with
  | none =>
    rw [active] at copied
    exact copyWhole_copied known (fun p => by simp [Covers, active]) copied
  | some node =>
    rw [active] at copied
    obtain ⟨first, -⟩ := activeNode_eq_some active
    obtain ⟨idsRef, idsAt, copied⟩ := Option.bind_eq_some_iff.mp copied
    obtain ⟨weights, weightsAt, copied⟩ := Option.bind_eq_some_iff.mp copied
    have count : (graph.tensor weights.origin).ne 2 = expertCount graph st node := by
      simp [expertCount, weightsAt]
    have own : idsOf (graph.tensor (idsTensor sched st split later idsRef).origin)
        (place.bytes (idsTensor sched st split later idsRef).origin) = ownIds graph place st node := by
      rw [origin_idsTensor copies]
      simp [ownIds, idsAt]
    obtain ⟨ids, memory, knownAfter⟩ := refreshIds_known known first own
    simp only [count] at copied
    by_cases several : 1 < (graph.tensor input).ne 2
    · rw [if_pos several] at copied
      obtain ⟨contents, ran, written⟩ := Option.bind_eq_some_iff.mp copied
      cases written
      rw [ids, memory] at ran
      refine ⟨fun p covers => ?_, fun p uncovered => ?_, fun t b other => ?_, knownAfter⟩
      · simp only [Covers, active, if_pos several] at covers
        have value := (foldlM_copyExperts ran p).1 covers
        simpa [CopyState.write] using value
      · simp only [Covers, active, if_pos several] at uncovered
        have value := (foldlM_copyExperts ran p).2 uncovered
        simpa [CopyState.write] using value
      · rw [← memory]
        exact if_neg other
    · rw [if_neg several] at copied
      have wholeCovers : ∀ p, Covers sched graph place st split input p ↔
          p < (graph.tensor input).nbytes := fun p => by simp [Covers, active, several]
      have whole := copyWhole_copied knownAfter wholeCovers copied
      refine ⟨whole.covered, fun p uncovered => ?_, fun t b other => ?_, whole.idsKnown⟩
      · rw [whole.uncovered p uncovered, memory]
      · rw [whole.others t b other, memory]

def CopiedBy (sched : BackendSched) (graph : CGraph) (place : Placement) (st : SplitState)
    (split : Split) (t : TensorId) (b : BackendId) (p : Nat) : Prop :=
  b = split.backendId ∧ t ∈ split.inputs ∧ Covers sched graph place st split t p

theorem copyInputsFrom_memory {inputs : List TensorId}
    (known : IdsKnown graph place st split state)
    (copies : ∀ t ∈ inputs, st.copies t split.backendId sched.curCopy = some (.copy t split.backendId sched.curCopy))
    (copied : copyInputsFrom sched graph place st split inputs state = some next) (t : TensorId)
    (b : BackendId) (p : Nat) :
    ((b = split.backendId ∧ t ∈ inputs ∧ Covers sched graph place st split t p) →
        next.memory t b p = place.bytes t p) ∧
      (¬ (b = split.backendId ∧ t ∈ inputs ∧ Covers sched graph place st split t p) →
        next.memory t b p = state.memory t b p) := by
  induction inputs generalizing state with
  | nil =>
    cases copied
    exact ⟨fun ⟨_, member, _⟩ => (nomatch member), fun _ => rfl⟩
  | cons input later ih =>
    obtain ⟨middle, first, copied⟩ := Option.bind_eq_some_iff.mp copied
    have laterCopies := fun t member => copies t (mem_cons_of_mem input member)
    have here := copyInput_copied known laterCopies first
    obtain ⟨inside, outside⟩ := ih here.idsKnown laterCopies copied
    constructor
    · intro ⟨sameBackend, member, covers⟩
      by_cases again : t ∈ later
      · exact inside ⟨sameBackend, again, covers⟩
      · obtain rfl := (mem_cons.mp member).resolve_right again
        rw [outside fun both => again both.2.1, sameBackend]
        exact here.covered p covers
    · intro notCopied
      rw [outside fun ⟨sameBackend, member, covers⟩ =>
        notCopied ⟨sameBackend, mem_cons_of_mem _ member, covers⟩]
      by_cases same : t = input ∧ b = split.backendId
      · obtain ⟨rfl, rfl⟩ := same
        exact here.uncovered p fun covers => notCopied ⟨rfl, mem_cons_self, covers⟩
      · rw [here.others t b same]

theorem copySplits_memory {splits : List Split} {memory final : DeviceMemory}
    (copies : ∀ split ∈ splits, ∀ t ∈ split.inputs, st.copies t split.backendId sched.curCopy =
      some (.copy t split.backendId sched.curCopy))
    (ran : copySplits sched graph place st memory splits = some final)
    (t : TensorId) (b : BackendId) (p : Nat) :
    ((∃ split ∈ splits, CopiedBy sched graph place st split t b p) → final t b p = place.bytes t p) ∧
      ((¬ ∃ split ∈ splits, CopiedBy sched graph place st split t b p) →
        final t b p = memory t b p) := by
  induction splits generalizing memory with
  | nil =>
    cases ran
    exact ⟨fun ⟨_, member, _⟩ => (nomatch member), fun _ => rfl⟩
  | cons split rest ih =>
    obtain ⟨middle, first, ran⟩ := Option.bind_eq_some_iff.mp ran
    obtain ⟨inside, outside⟩ := ih (fun other member => copies other (mem_cons_of_mem _ member)) ran
    obtain ⟨state, copied, rfl⟩ := Option.map_eq_some_iff.mp first
    obtain ⟨here, kept⟩ := copyInputsFrom_memory (fun ref node impossible => by cases impossible)
      (copies split mem_cons_self) copied t b p
    constructor
    · rintro ⟨other, member, copiedBy⟩
      by_cases later : ∃ split ∈ rest, CopiedBy sched graph place st split t b p
      · exact inside later
      · rcases mem_cons.mp member with rfl | member
        · rw [outside later]
          exact here copiedBy
        · exact absurd ⟨other, member, copiedBy⟩ later
    · intro none
      rw [outside fun ⟨other, member, copiedBy⟩ =>
        none ⟨other, mem_cons_of_mem _ member, copiedBy⟩]
      exact kept fun copiedBy => none ⟨split, mem_cons_self, copiedBy⟩

def weightPlaces (op : Op) : List (Fin ggmlMaxSrc) :=
  if op = .mulMatId then [⟨0, ggmlMaxSrc_pos⟩] else [⟨0, ggmlMaxSrc_pos⟩, ⟨1, by decide⟩]

/-- A node of the split multiplies by experts from the copy of a host weight. -/
structure ReadsExperts (sched : BackendSched) (graph : CGraph) (place : Placement) (st : SplitState)
    (split : Split) (node w : TensorId) (b : BackendId) : Prop where
  inSplit : ∃ i, split.iStart ≤ i ∧ i < split.iEnd ∧ graph.nodes[i]? = some node
  moe : isMoe (graph.tensor node).op = true
  reads : ∃ k ∈ weightPlaces (graph.tensor node).op,
    st.srcs node k = some (.copy w b sched.curCopy)
  weight : isHostWeight place w = true
  experts : 1 < (graph.tensor w).ne 2

/-- The copy holds the bytes of slice `e`. -/
def SliceHeld (graph : CGraph) (place : Placement) (memory : DeviceMemory) (w : TensorId)
    (b : BackendId) (e : Nat) : Prop :=
  ∀ r, r < (graph.tensor w).nb 2 → e * (graph.tensor w).nb 2 + r < (graph.tensor w).nbytes →
    memory w b (e * (graph.tensor w).nb 2 + r) = place.bytes w (e * (graph.tensor w).nb 2 + r)

/-- What the split that lists the weight does for slice `e`: it copies all of the tensor, or its
first node selects the slice, or what is not padding after a selected slice was there before. -/
def SliceCopied (sched : BackendSched) (graph : CGraph) (place : Placement) (st : SplitState)
    (lister : Split) (memory : DeviceMemory) (w : TensorId) (e : Nat) : Prop :=
  match activeNode sched graph place lister w with
  | none => True
  | some first =>
    (e : Int) ∈ ownIds graph place st first ∨
      ∀ r, r < (graph.tensor w).nb 2 → e * (graph.tensor w).nb 2 + r < (graph.tensor w).nbytes →
        (0 < e ∧ e < expertCount graph st first ∧
          ((e - 1 : Nat) : Int) ∈ ownIds graph place st first ∧ r < 512) ∨
        memory w lister.backendId (e * (graph.tensor w).nb 2 + r) =
          place.bytes w (e * (graph.tensor w).nb 2 + r)

def IdsInRange (graph : CGraph) (place : Placement) (st : SplitState) : Prop :=
  ∀ node ∈ graph.nodes, isMoe (graph.tensor node).op = true →
    ∀ id ∈ ownIds graph place st node, 0 ≤ id ∧ id < expertCount graph st node

theorem firstNode_mem (first : firstNode graph split = some node) : node ∈ graph.nodes := by
  unfold firstNode at first
  split at first
  · exact mem_of_getElem? first
  · cases first

theorem covers_slice {lister : Split} {w : TensorId} {e r : Nat} {first : TensorId}
    (inRange : IdsInRange graph place st) (experts : 1 < (graph.tensor w).ne 2)
    (active : activeNode sched graph place lister w = some first) (inside : r < (graph.tensor w).nb 2) :
    Covers sched graph place st lister w (e * (graph.tensor w).nb 2 + r) ↔
      (e : Int) ∈ ownIds graph place st first ∨
        (0 < e ∧ e < expertCount graph st first ∧
          ((e - 1 : Nat) : Int) ∈ ownIds graph place st first ∧ r < 512) := by
  obtain ⟨isFirst, moe⟩ := activeNode_eq_some active
  have bounded := inRange first (firstNode_mem isFirst) moe
  simp only [Covers, active, if_pos experts]
  exact inRun_slice bounded inside

theorem sliceHeld_iff {splits : List Split} {memory final : DeviceMemory} {lister : Split}
    {w : TensorId} {e : Nat} (inRange : IdsInRange graph place st)
    (copies : ∀ split ∈ splits, ∀ t ∈ split.inputs, st.copies t split.backendId sched.curCopy =
      some (.copy t split.backendId sched.curCopy))
    (once : (listedInputs splits).Nodup)
    (ran : copySplits sched graph place st memory splits = some final)
    (member : lister ∈ splits) (lists : w ∈ lister.inputs) (experts : 1 < (graph.tensor w).ne 2) :
    SliceHeld graph place final w lister.backendId e ↔
      SliceCopied sched graph place st lister memory w e := by
  have written := copySplits_memory copies ran w lister.backendId
  have onlyLister : ∀ p, (∃ split ∈ splits, CopiedBy sched graph place st split w lister.backendId p) ↔
      Covers sched graph place st lister w p := by
    intro p
    constructor
    · rintro ⟨split, splitMember, sameBackend, splitLists, covers⟩
      rwa [lister_unique once member splitMember lists splitLists sameBackend]
    · exact fun covers => ⟨lister, member, rfl, lists, covers⟩
  simp only [onlyLister] at written
  unfold SliceCopied
  cases active : activeNode sched graph place lister w with
  | none =>
    refine ⟨fun _ => trivial, fun _ r inside within => (written _).1 ?_⟩
    simpa only [Covers, active] using within
  | some first =>
    constructor
    · intro held
      by_cases selected : (e : Int) ∈ ownIds graph place st first
      · exact .inl selected
      · refine .inr fun r inside within => ?_
        by_cases covers : Covers sched graph place st lister w (e * (graph.tensor w).nb 2 + r)
        · exact .inl (((covers_slice inRange experts active inside).mp covers).resolve_left selected)
        · exact .inr (((written _).2 covers).symm.trans (held r inside within))
    · intro copied r inside within
      by_cases covers : Covers sched graph place st lister w (e * (graph.tensor w).nb 2 + r)
      · exact (written _).1 covers
      · have notCopied := fun either => covers ((covers_slice inRange experts active inside).mpr either)
        obtain selected | rest := copied
        · exact absurd (.inl selected) notCopied
        · obtain padded | present := rest r inside within
          · exact absurd (.inr padded) notCopied
          · exact ((written _).2 covers).trans present

/-- After the inputs of split `s` are copied, its nodes find the slices of their ids exactly if
the splits that list the weights copied them, whatever memory held before. -/
theorem copyInputs_slices_iff {oldBackend : BackendId} {backendIds : TensorId → BackendId} {s : Nat}
    {split : Split} {memory final : DeviceMemory}
    (made : splitGraph sched graph backendIds oldBackend = .ok st)
    (inRange : IdsInRange graph place st) (here : st.splits[s]? = some split)
    (ran : copySplits sched graph place st memory (st.splits.take (s + 1)) = some final) :
    (∀ node w b, ReadsExperts sched graph place st split node w b →
        ∀ id ∈ ownIds graph place st node, SliceHeld graph place final w b id.toNat) ↔
      ∀ node w b, ReadsExperts sched graph place st split node w b →
        ∀ id ∈ ownIds graph place st node, ∃ lister ∈ st.splits.take (s + 1),
          lister.backendId = b ∧ w ∈ lister.inputs ∧
            SliceCopied sched graph place st lister memory w id.toNat := by
  have copies : ∀ split ∈ st.splits.take (s + 1), ∀ t ∈ split.inputs,
      st.copies t split.backendId sched.curCopy = some (.copy t split.backendId sched.curCopy) :=
    fun split member t lists =>
      splitGraph_copies made ⟨split, mem_of_mem_take member, rfl, lists⟩
  have once : (listedInputs (st.splits.take (s + 1))).Nodup := by
    have all := splitGraph_once made
    rw [← take_append_drop (s + 1) st.splits, listedInputs, flatMap_append,
      nodup_append] at all
    exact all.1
  constructor
  · intro held node w b reads id selected
    obtain ⟨i, first, inside, atI⟩ := reads.inSplit
    obtain ⟨k, -, found⟩ := reads.reads
    obtain ⟨lister, member, rfl, lists⟩ := splitGraph_reads made here first inside atI found
    exact ⟨lister, member, rfl, lists, (sliceHeld_iff inRange copies once ran member lists
      reads.experts).mp (held node w _ reads id selected)⟩
  · intro copied node w b reads id selected
    obtain ⟨lister, member, rfl, lists, slice⟩ := copied node w b reads id selected
    exact (sliceHeld_iff inRange copies once ran member lists reads.experts).mpr slice

/-- Tensor 0 holds three experts on the device and tensor 1 three more on the host; 3 and 4 are
ids, 10 and 11 the multiplications by them. -/
def moeGraph : CGraph where
  tensor t :=
    if t < 2 then
      { plainTensor with
        ne := fun i => if i = 0 then 256 else if i = 2 then 3 else 1
        nb := fun i => if i = 0 then 4 else if i = 3 then 3072 else 1024
        nbytes := 3072
        buffer := some ⟨t, .weights⟩ }
    else if t = 3 ∨ t = 4 then
      { plainTensor with ne := fun _ => 1, nb := fun _ => 4, nbytes := 4 }
    else if t = 10 ∨ t = 11 then
      { plainTensor with
        op := .mulMatId
        srcs := fun j =>
          if j.val = 0 then some (t - 10) else if j.val = 1 then some 2
          else if j.val = 2 then some (t - 7) else none }
    else plainTensor
  nodes := [10, 11]
  nodup := by decide

/-- The first multiplication selects expert 0, the second expert 2; the host weight is all ones. -/
def moePlacement : Placement where
  buffer t := ⟨if t = 1 then 1 else 0, if t < 2 then .weights else .compute⟩
  isHost buft := buft = 1
  bytes t p := if t = 1 then 1 else if t = 4 ∧ p = 0 then 2 else 0

def moeState : SplitState :=
  okOr (splitStart moeGraph (fun t => if t = 1 then 1 else 0) 0)
    (splitGraph twoBackends moeGraph (fun t => if t = 1 then 1 else 0) 0)

def moeMemory : DeviceMemory :=
  (copySplits twoBackends moeGraph moePlacement moeState (fun _ _ _ => 0)
    (moeState.splits.take 1)).getD fun _ _ _ => 0

theorem moe_made :
    splitGraph twoBackends moeGraph (fun t => if t = 1 then 1 else 0) 0 = .ok moeState :=
  okOr_eq (by decide +kernel)

theorem moe_copied :
    copySplits twoBackends moeGraph moePlacement moeState (fun _ _ _ => 0) (moeState.splits.take 1) =
      some moeMemory := by
  have copied : (copySplits twoBackends moeGraph moePlacement moeState (fun _ _ _ => 0)
      (moeState.splits.take 1)).isSome = true := by decide +kernel
  unfold moeMemory
  obtain ⟨memory, value⟩ := Option.isSome_iff_exists.mp copied
  rw [value, Option.getD_some]

theorem moe_split : moeState.splits[0]? = some ⟨0, 0, 2, [1]⟩ := by decide +kernel

theorem moe_inRange : IdsInRange moeGraph moePlacement moeState := by
  unfold IdsInRange
  decide +kernel

theorem moe_reads :
    ReadsExperts twoBackends moeGraph moePlacement moeState ⟨0, 0, 2, [1]⟩ 11 1 0 where
  inSplit := ⟨1, by decide⟩
  moe := rfl
  reads := ⟨⟨0, by decide⟩, by decide +kernel⟩
  weight := rfl
  experts := by decide

theorem moe_slice_missing :
    (2 : Int) ∈ ownIds moeGraph moePlacement moeState 11 ∧
      ¬ SliceHeld moeGraph moePlacement moeMemory 1 0 2 := by
  refine ⟨by decide +kernel, fun held => ?_⟩
  have byte := held 0 (by decide) (by decide)
  revert byte
  decide +kernel

theorem later_experts_missing :
    ¬ ∀ node w b, ReadsExperts twoBackends moeGraph moePlacement moeState ⟨0, 0, 2, [1]⟩ node w b →
      ∀ id ∈ ownIds moeGraph moePlacement moeState node,
        SliceHeld moeGraph moePlacement moeMemory w b id.toNat :=
  fun held => moe_slice_missing.2 (held 11 1 0 moe_reads 2 moe_slice_missing.1)

/-- The condition fails there as well. -/
theorem moe_slice_uncopied :
    ¬ ∀ node w b, ReadsExperts twoBackends moeGraph moePlacement moeState ⟨0, 0, 2, [1]⟩ node w b →
      ∀ id ∈ ownIds moeGraph moePlacement moeState node, ∃ lister ∈ moeState.splits.take 1,
        lister.backendId = b ∧ w ∈ lister.inputs ∧
          SliceCopied twoBackends moeGraph moePlacement moeState lister (fun _ _ _ => 0) w id.toNat :=
  fun copied => moe_slice_missing.2
    ((copyInputs_slices_iff moe_made moe_inRange moe_split moe_copied).mpr copied 11 1 0 moe_reads 2
      moe_slice_missing.1)

end LlamaCpp.Sched
