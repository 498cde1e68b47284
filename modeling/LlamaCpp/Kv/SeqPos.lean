import LlamaCpp.Kv.ContextRuns
import LlamaCpp.Kv.EmptyRun

/-!
# The smallest and the largest position of a sequence

`llama_kv_cache_seq_pos_max` looks at every cell of the sequence, `llama_kv_cache_seq_pos_min`
only at the first one.  The first cell holds the smallest position as long as the cells of a
sequence stand in the order of their positions.
-/

set_option autoImplicit false

namespace LlamaCpp.Kv

open LlamaCpp.Lib List

def kvCacheSeqPosMax (c : KvCache) (seqId : Int) : Int :=
  c.cells.foldl (fun result cell => if cell.hasSeqId seqId then max result cell.pos else result) 0

/-- `llama_kv_cache_seq_pos_min`: the loop ends at the first cell of the sequence. -/
def kvCacheSeqPosMin (c : KvCache) (seqId : Int) : Int :=
  match c.cells.find? fun cell => cell.hasSeqId seqId with
  | some cell => cell.pos
  | none => -1

def KvCache.positions (c : KvCache) (seqId : Int) : Set Int :=
  {pos | ∃ cell ∈ c.cells, seqId ∈ cell.seqId ∧ cell.pos = pos}

def LeastFirst (c : KvCache) (seqId : Int) : Prop :=
  ∃ i, i < c.size ∧ seqId ∈ (c.cell i).seqId ∧ (∀ j, j < i → seqId ∉ (c.cell j).seqId) ∧
    ∀ j, j < c.size → seqId ∈ (c.cell j).seqId → (c.cell i).pos ≤ (c.cell j).pos

def KvCache.Ordered (c : KvCache) : Prop :=
  ∀ i j, i ≤ j → ∀ id ∈ (c.cell i).seqId, id ∈ (c.cell j).seqId → (c.cell i).pos ≤ (c.cell j).pos

/-- The batch goes behind the smaller positions of its sequences and before the larger ones. -/
def PlacesInOrder (c : KvCache) (batch : Batch) (head : Nat) : Prop :=
  (batch.tokens.Pairwise fun a b => ∀ id ∈ a.seqIds, id ∈ b.seqIds → a.pos ≤ b.pos) ∧
    ∀ i, i < c.size → ∀ id ∈ (c.cell i).seqId, ∀ tok ∈ batch.tokens, id ∈ tok.seqIds →
      if i < head then (c.cell i).pos ≤ tok.pos else tok.pos ≤ (c.cell i).pos

def KvCell.repositioned (seqId p0 p1 : Int) (f : Int → Int) (cell : KvCell) : Int :=
  if cell.inSeqRange seqId p0 p1 then f cell.pos else cell.pos

def RepositionsInOrder (c : KvCache) (seqId p0 p1 : Int) (f : Int → Int) : Prop :=
  let after := fun i => (c.cell i).repositioned seqId (rangeLow p0) (rangeHigh p1) f
  ∀ j, j < c.size → ∀ i, i < j → ∀ id ∈ (c.cell i).seqId, id ∈ (c.cell j).seqId →
    0 ≤ after i → 0 ≤ after j → after i ≤ after j

def CopiesInOrder (c : KvCache) (src dst p0 p1 : Int) : Prop :=
  let copied := fun i => seqCpCell (copySource c src dst) dst (rangeLow p0) (rangeHigh p1) (c.cell i)
  ∀ j, j < c.size → ∀ i, i < j → dst ∈ (copied i).seqId → dst ∈ (copied j).seqId →
    (c.cell i).pos ≤ (c.cell j).pos

def DefragsInOrder (env : ContextEnv) (c : KvCache) : Prop :=
  c.doDefrag = true →
    ∀ s ∈ kvCacheDefragInternal (applyStateCopy (applyShift env c)) env.maxMoves,
      ∀ i, i < c.size → ∀ j, j < c.size → newIndex s.ids i < newIndex s.ids j →
        ∀ id ∈ (c.cell i).seqId, id ∈ (c.cell j).seqId → (c.cell i).pos ≤ (c.cell j).pos

/-- The operations of a run that keep the order.  The restores of a state are not among them. -/
def ContextOp.KeepsOrder (env : ContextEnv) (c : KvCache) : ContextOp → Prop
  | .cache (.findSlot batch embdToken meta_) =>
    (kvCacheFindSlot c batch embdToken meta_).1 = true →
      PlacesInOrder c batch (kvCacheFindSlot c batch embdToken meta_).2.head
  | .cache (.seqCp src dst p0 p1) => CopiesInOrder c src dst p0 p1
  | .cache (.seqAdd seqId p0 p1 delta) => RepositionsInOrder c seqId p0 p1 (· + delta)
  | .cache (.seqDiv seqId p0 p1 d) => RepositionsInOrder c seqId p0 p1 (·.tdiv d)
  | .update => DefragsInOrder env c
  | .readState .. => False
  | _ => True

instance (c : KvCache) (batch : Batch) (head : Nat) : Decidable (PlacesInOrder c batch head) :=
  inferInstanceAs (Decidable (_ ∧ _))

instance (c : KvCache) (seqId p0 p1 : Int) (f : Int → Int) :
    Decidable (RepositionsInOrder c seqId p0 p1 f) :=
  inferInstanceAs (Decidable (∀ j, j < c.size → ∀ i, i < j → _))

instance (c : KvCache) (src dst p0 p1 : Int) : Decidable (CopiesInOrder c src dst p0 p1) :=
  inferInstanceAs (Decidable (∀ j, j < c.size → ∀ i, i < j → _ → _ → _))

instance (env : ContextEnv) (c : KvCache) : Decidable (DefragsInOrder env c) :=
  inferInstanceAs (Decidable (_ → _))

instance (env : ContextEnv) (c : KvCache) : (op : ContextOp) → Decidable (op.KeepsOrder env c)
  | .cache (.findSlot ..) => inferInstanceAs (Decidable (_ → _))
  | .cache (.seqCp src dst p0 p1) => inferInstanceAs (Decidable (CopiesInOrder c src dst p0 p1))
  | .cache (.seqAdd seqId p0 p1 delta) =>
    inferInstanceAs (Decidable (RepositionsInOrder c seqId p0 p1 (· + delta)))
  | .cache (.seqDiv seqId p0 p1 d) =>
    inferInstanceAs (Decidable (RepositionsInOrder c seqId p0 p1 (·.tdiv d)))
  | .cache (.searchFromStart _) | .cache (.seqRm ..) | .cache (.seqKeep _) | .cache .clear =>
    isTrue trivial
  | .update => inferInstanceAs (Decidable (DefragsInOrder env c))
  | .readState .. => isFalse fun impossible => impossible
  | .defrag => isTrue trivial

theorem KvCache.cell_mem {c : KvCache} {i : Nat} (inside : i < c.size) : c.cell i ∈ c.cells := by
  rw [KvCache.cell, getD_eq_getElem _ _ inside]
  exact getElem_mem inside

theorem KvCache.inside_of_owns {c : KvCache} {i : Nat} {seqId : Int}
    (owns : seqId ∈ (c.cell i).seqId) : i < c.size := by
  by_contra outside
  rw [KvCache.cell, getD_eq_default _ _ (not_lt.mp outside)] at owns
  exact absurd owns (Finset.notMem_empty _)

theorem KvCache.exists_index {c : KvCache} {cell : KvCell} (member : cell ∈ c.cells) :
    ∃ i, i < c.size ∧ c.cell i = cell := by
  obtain ⟨i, inside, same⟩ := mem_iff_getElem.mp member
  exact ⟨i, inside, by rw [KvCache.cell, getD_eq_getElem _ _ inside, same]⟩

section

variable {c : KvCache} {seqId : Int}

theorem KvCache.Exact.nonneg (exact_ : c.Exact) {i : Nat} (owns : seqId ∈ (c.cell i).seqId) :
    0 ≤ (c.cell i).pos :=
  (exact_.cells _ (KvCache.cell_mem (KvCache.inside_of_owns owns))).mpr ⟨seqId, owns⟩

theorem mem_positions {pos : Int} :
    pos ∈ c.positions seqId ↔ ∃ i, seqId ∈ (c.cell i).seqId ∧ (c.cell i).pos = pos := by
  constructor
  · rintro ⟨cell, member, owns, same⟩
    obtain ⟨i, -, here⟩ := KvCache.exists_index member
    exact ⟨i, here ▸ owns, here ▸ same⟩
  · rintro ⟨i, owns, same⟩
    exact ⟨c.cell i, KvCache.cell_mem (KvCache.inside_of_owns owns), owns, same⟩

/-- The fold over some cells is at least its start and the position of every cell of the
sequence, and it is one of them. -/
theorem foldl_posMax (cells : List KvCell) (start : Int) :
    let result := cells.foldl
      (fun result cell => if cell.hasSeqId seqId then max result cell.pos else result) start
    start ≤ result ∧ (∀ cell ∈ cells, seqId ∈ cell.seqId → cell.pos ≤ result) ∧
      (result = start ∨ ∃ cell ∈ cells, seqId ∈ cell.seqId ∧ cell.pos = result) := by
  induction cells generalizing start with
  | nil => simp
  | cons cell rest ih =>
    simp only [foldl_cons]
    by_cases owns : cell.hasSeqId seqId = true
    · rw [if_pos owns]
      obtain ⟨above, covers, reached⟩ := ih (max start cell.pos)
      refine ⟨(le_max_left _ _).trans above, ?_, ?_⟩
      · intro other member holds
        rcases mem_cons.mp member with rfl | later
        · exact (le_max_right _ _).trans above
        · exact covers other later holds
      · rcases reached with same | ⟨other, later, holds, same⟩
        · rcases max_choice start cell.pos with left | right
          · exact Or.inl (same.trans left)
          · exact Or.inr ⟨cell, mem_cons_self, (KvCell.hasSeqId_iff _ _).mp owns,
              (same.trans right).symm⟩
        · exact Or.inr ⟨other, mem_cons_of_mem _ later, holds, same⟩
    · rw [if_neg owns]
      obtain ⟨above, covers, reached⟩ := ih start
      refine ⟨above, ?_, ?_⟩
      · intro other member holds
        rcases mem_cons.mp member with rfl | later
        · exact absurd ((KvCell.hasSeqId_iff _ _).mpr holds) owns
        · exact covers other later holds
      · exact reached.imp_right fun ⟨other, later, rest⟩ =>
          ⟨other, mem_cons_of_mem _ later, rest⟩

theorem kvCacheSeqPosMax_isGreatest (exact_ : c.Exact) (owned : (c.positions seqId).Nonempty) :
    IsGreatest (c.positions seqId) (kvCacheSeqPosMax c seqId) := by
  obtain ⟨above, covers, reached⟩ := @foldl_posMax seqId c.cells 0
  refine ⟨?_, ?_⟩
  · rcases reached with zero | ⟨cell, member, owns, same⟩
    · -- the loop starts at 0, and no position of a used cell is below it
      obtain ⟨pos, cell, member, owns, same⟩ := owned
      have least : 0 ≤ cell.pos := (exact_.cells cell member).mpr ⟨seqId, owns⟩
      have most := covers cell member owns
      refine ⟨cell, member, owns, ?_⟩
      rw [kvCacheSeqPosMax]
      omega
    · exact ⟨cell, member, owns, same⟩
  · rintro pos ⟨cell, member, owns, rfl⟩
    exact covers cell member owns

/-- The first cell of a sequence that owns some, where the loop of `seq_pos_min` stops. -/
theorem exists_first (owned : (c.positions seqId).Nonempty) :
    ∃ i, i < c.size ∧ seqId ∈ (c.cell i).seqId ∧ (∀ j, j < i → seqId ∉ (c.cell j).seqId) ∧
      kvCacheSeqPosMin c seqId = (c.cell i).pos := by
  obtain ⟨pos, cell, member, owns, -⟩ := owned
  cases found : c.cells.find? fun cell => cell.hasSeqId seqId with
  | none =>
    have missed := List.find?_eq_none.mp found cell member
    exact absurd ((KvCell.hasSeqId_iff _ _).mpr owns) missed
  | some first =>
    obtain ⟨holds, i, inside, here, before⟩ := List.find?_eq_some_iff_getElem.mp found
    have same : c.cell i = first := by rw [KvCache.cell, getD_eq_getElem _ _ inside, here]
    refine ⟨i, inside, same ▸ (KvCell.hasSeqId_iff _ _).mp holds, ?_, ?_⟩
    · intro j earlier
      have missed := before j earlier
      rw [KvCache.cell, getD_eq_getElem _ _ (earlier.trans inside)]
      simpa [KvCell.hasSeqId] using missed
    · rw [kvCacheSeqPosMin, found, same]

theorem kvCacheSeqPosMin_isLeast_iff (owned : (c.positions seqId).Nonempty) :
    IsLeast (c.positions seqId) (kvCacheSeqPosMin c seqId) ↔ LeastFirst c seqId := by
  obtain ⟨i, inside, owns, first, result⟩ := exists_first owned
  rw [result]
  constructor
  · rintro ⟨-, least⟩
    exact ⟨i, inside, owns, first, fun j _ holds => least (mem_positions.mpr ⟨j, holds, rfl⟩)⟩
  · rintro ⟨k, -, holds, early, least⟩
    have same : k = i := by
      rcases lt_trichotomy k i with below | same | above
      · exact absurd holds (first k below)
      · exact same
      · exact absurd owns (early i above)
    subst k
    refine ⟨mem_positions.mpr ⟨i, owns, rfl⟩, ?_⟩
    intro pos member
    obtain ⟨j, held, rfl⟩ := mem_positions.mp member
    exact least j (KvCache.inside_of_owns held) held

theorem KvCache.Ordered.leastFirst (ordered : c.Ordered) (owned : (c.positions seqId).Nonempty) :
    LeastFirst c seqId := by
  obtain ⟨i, inside, owns, first, -⟩ := exists_first owned
  refine ⟨i, inside, owns, first, ?_⟩
  intro j _ held
  exact ordered i j (not_lt.mp fun below => first j below held) seqId owns held

end

/-- A cell that has sequences afterwards had them before, and its position is the given
function of the old cell. -/
def Repositions (f : KvCell → Int) (c c' : KvCache) : Prop :=
  ∀ i, (c'.cell i).seqId.Nonempty →
    (c'.cell i).seqId ⊆ (c.cell i).seqId ∧ (c'.cell i).pos = f (c.cell i)

variable {c' : KvCache} {p0 p1 : Int} {env : ContextEnv}

theorem Repositions.ordered {f : KvCell → Int} {c : KvCache} (moved : Repositions f c c')
    (order : ∀ i j, i < j → ∀ id ∈ (c.cell i).seqId, id ∈ (c.cell j).seqId → (c'.cell i).seqId.Nonempty → (c'.cell j).seqId.Nonempty → f (c.cell i) ≤ f (c.cell j)) :
    c'.Ordered := by
  intro i j upto id left right
  obtain ⟨leftSub, leftPos⟩ := moved i ⟨id, left⟩
  obtain ⟨rightSub, rightPos⟩ := moved j ⟨id, right⟩
  rcases upto.eq_or_lt with rfl | below
  · exact le_refl _
  · rw [leftPos, rightPos]
    exact order i j below id (leftSub left) (rightSub right) ⟨id, left⟩ ⟨id, right⟩

theorem KvCache.Ordered.of_repositions {c : KvCache} (ordered : c.Ordered)
    (shrinks : Repositions KvCell.pos c c') : c'.Ordered :=
  shrinks.ordered fun i j below id left right _ _ => ordered i j below.le id left right

theorem ordered_of_empty {c : KvCache} (empty : ∀ cell ∈ c.cells, cell.isEmpty = true) :
    c.Ordered := by
  intro i j _ id left _
  have blank := empty _ (KvCache.cell_mem (KvCache.inside_of_owns left))
  rw [(KvCell.isEmpty_iff _).mp blank] at left
  exact absurd left (Finset.notMem_empty _)

theorem repositions_of_tags {c : KvCache}
    (tags : c'.cells.map KvCell.tag = c.cells.map KvCell.tag) : Repositions KvCell.pos c c' := by
  intro i _
  obtain ⟨pos, -, seqId⟩ := KvCell.tag_eq (getD_congr_map KvCell.tag tags i)
  exact ⟨seqId.subset, pos⟩

theorem sweep_repositions {f : KvCell → Int} {c : KvCache} {visit : Nat → KvCell → CellVisit}
    (each : ∀ i cell, (visit i cell).cell.seqId.Nonempty → (visit i cell).cell.seqId ⊆ cell.seqId ∧ (visit i cell).cell.pos = f cell)
    (cells : c'.cells = (c.sweep visit).cells) : Repositions f c c' := by
  intro i nonempty
  have inside : i < c.size := by
    obtain ⟨id, owns⟩ := nonempty
    have bounded := KvCache.inside_of_owns owns
    rwa [KvCache.size, cells, sweep_size] at bounded
  rw [KvCache.cell, cells, getD_sweep c visit i inside] at nonempty ⊢
  exact each i _ nonempty

theorem seqRmVisit_repositions (q : Bool) (seqId p0 p1 : Int) (i : Nat) (cell : KvCell)
    (nonempty : (seqRmVisit q seqId p0 p1 i cell).cell.seqId.Nonempty) :
    (seqRmVisit q seqId p0 p1 i cell).cell.seqId ⊆ cell.seqId ∧
      (seqRmVisit q seqId p0 p1 i cell).cell.pos = cell.pos := by
  simp only [seqRmVisit] at nonempty ⊢
  split at nonempty
  · rename_i hit
    rw [if_pos hit]
    split at nonempty
    · simp [KvCell.release] at nonempty
    · rename_i left
      rw [if_neg left]
      refine ⟨?_, rfl⟩
      simp only [KvCell.dropSeqId]
      split
      · exact Finset.empty_subset _
      · exact Finset.erase_subset _ _
  · rename_i missed
    rw [if_neg missed]
    exact ⟨subset_rfl, rfl⟩

theorem seqKeepVisit_repositions (q : Bool) (seqId : Int) (i : Nat) (cell : KvCell)
    (nonempty : (seqKeepVisit q seqId i cell).cell.seqId.Nonempty) :
    (seqKeepVisit q seqId i cell).cell.seqId ⊆ cell.seqId ∧
      (seqKeepVisit q seqId i cell).cell.pos = cell.pos := by
  simp only [seqKeepVisit] at nonempty ⊢
  split at nonempty
  · rename_i owns
    rw [if_pos owns]
    exact ⟨Finset.singleton_subset_iff.mpr ((KvCell.hasSeqId_iff _ _).mp owns), rfl⟩
  · simp [KvCell.release] at nonempty

theorem seqAddVisit_repositions (mrope : Bool) (seqId p0 p1 delta : Int) (i : Nat) (cell : KvCell)
    (nonempty : (seqAddVisit mrope seqId p0 p1 delta i cell).cell.seqId.Nonempty) :
    (seqAddVisit mrope seqId p0 p1 delta i cell).cell.seqId ⊆ cell.seqId ∧
      (seqAddVisit mrope seqId p0 p1 delta i cell).cell.pos =
        cell.repositioned seqId p0 p1 (· + delta) := by
  simp only [seqAddVisit, KvCell.repositioned] at nonempty ⊢
  split at nonempty
  · rename_i hit
    rw [if_pos hit, if_pos hit]
    split at nonempty
    · simp [KvCell.release] at nonempty
    · rename_i stays
      rw [if_neg stays]
      exact ⟨subset_rfl, rfl⟩
  · rename_i missed
    rw [if_neg missed, if_neg missed]
    exact ⟨subset_rfl, rfl⟩

theorem seqDivVisit_repositions (mrope : Bool) (seqId p0 p1 d : Int) (i : Nat) (cell : KvCell) :
    (seqDivVisit mrope seqId p0 p1 d i cell).cell.seqId ⊆ cell.seqId ∧
      (seqDivVisit mrope seqId p0 p1 d i cell).cell.pos =
        cell.repositioned seqId p0 p1 (·.tdiv d) := by
  simp only [seqDivVisit, KvCell.repositioned]
  split
  · exact ⟨subset_rfl, rfl⟩
  · exact ⟨subset_rfl, rfl⟩

theorem RepositionsInOrder.ordered {c : KvCache} {seqId : Int} {f : Int → Int}
    (keeps : RepositionsInOrder c seqId p0 p1 f) (exact_ : c'.Exact)
    (moved : Repositions (KvCell.repositioned seqId (rangeLow p0) (rangeHigh p1) f) c c') :
    c'.Ordered := by
  have nonneg : ∀ i, (c'.cell i).seqId.Nonempty →
      0 ≤ (c.cell i).repositioned seqId (rangeLow p0) (rangeHigh p1) f := by
    intro i nonempty
    obtain ⟨id, owns⟩ := nonempty
    have placed := exact_.nonneg owns
    rwa [(moved i ⟨id, owns⟩).2] at placed
  refine moved.ordered fun i j below id left right leftUsed rightUsed => ?_
  exact keeps j (KvCache.inside_of_owns right) i below id left right (nonneg i leftUsed)
    (nonneg j rightUsed)

theorem mem_of_mem_seqCpCell {src dst id : Int} {cell : KvCell} (other : id ≠ dst)
    (owns : id ∈ (seqCpCell src dst p0 p1 cell).seqId) : id ∈ cell.seqId := by
  unfold seqCpCell at owns
  split at owns
  · exact (Finset.mem_insert.mp owns).resolve_left other
  · exact owns

theorem seqCp_ordered {c : KvCache} {src dst : Int} (plain : c.Plain) (exact_ : c.Exact)
    (ordered : c.Ordered) (keeps : CopiesInOrder c src dst p0 p1)
    (stepped : kvCacheSeqCp c src dst p0 p1 = some c') : c'.Ordered := by
  let copy := seqCpCell (copySource c src dst) dst (rangeLow p0) (rangeHigh p1)
  have cell : ∀ i, (c'.cell i).pos = (c.cell i).pos ∧
      (c'.cell i).seqId = (copy (c.cell i)).seqId := by
    intro i
    have tags := getD_congr_map KvCell.tag (kvCacheSeqCp_tags c c' src dst p0 p1 plain stepped) i
    have blank : copy {} = {} := by simp [copy, seqCpCell]
    have mapped : (c.cells.map copy).getD i {} = copy (c.cell i) := by
      have through : (c.cells.map copy).getD i (copy {}) = copy (c.cell i) :=
        getD_map c.cells {} copy
      rwa [blank] at through
    rw [mapped] at tags
    obtain ⟨pos, -, seqId⟩ := KvCell.tag_eq tags
    refine ⟨pos.trans ?_, seqId⟩
    simp only [copy, seqCpCell]
    split <;> rfl
  intro i j upto id left right
  rw [(cell i).2] at left
  rw [(cell j).2] at right
  rw [(cell i).1, (cell j).1]
  by_cases same : id = dst
  · subst id
    rcases upto.eq_or_lt with rfl | below
    · exact le_refl _
    · have inside : j < c.size := by
        have bounded := KvCache.inside_of_owns ((cell j).2 ▸ right)
        rwa [cacheStep_size (.seqCp src dst p0 p1) plain exact_.head stepped] at bounded
      exact keeps j inside i below left right
  · exact ordered i j upto id (mem_of_mem_seqCpCell same left) (mem_of_mem_seqCpCell same right)

theorem KvCache.Exact.placedExactly {c : KvCache} (exact_ : c.Exact) : PlacedExactly c :=
  fun _ inside =>
    (exact_.cells _ (KvCache.cell_mem inside)).trans (KvCell.isEmpty_false_iff _).symm

theorem findSlot_ordered {c : KvCache} {batch : Batch} {embdToken : Int} {meta_ : Bool}
    (plain : c.Plain) (exact_ : c.Exact) (ordered : c.Ordered)
    (keeps : PlacesInOrder c batch c'.head)
    (found : kvCacheFindSlot c batch embdToken meta_ = (true, c')) : c'.Ordered := by
  obtain ⟨run, -, written⟩ :=
    kvCacheFindSlot_writes exact_.placedExactly plain.recurrent exact_.head found
  obtain ⟨fits, -, -, kept⟩ :=
    kvCacheFindSlot_cell c c' batch embdToken meta_ plain.recurrent exact_.head found
  obtain ⟨sorted, around⟩ := keeps
  -- a cell of the slot holds its token, any other cell is as before
  have cases : ∀ i, (∃ a, ∃ inside : a < batch.tokens.length, i = c'.head + a ∧
      (c'.cell i).pos = batch.tokens[a].pos ∧
      (c'.cell i).seqId = batch.tokens[a].seqIds.toFinset) ∨
      ((i < c'.head ∨ c'.head + batch.tokens.length ≤ i) ∧ c'.cell i = c.cell i) := by
    intro i
    by_cases slot : c'.head ≤ i ∧ i < c'.head + batch.tokens.length
    · obtain ⟨a, rfl⟩ := Nat.exists_eq_add_of_le slot.1
      obtain ⟨pos, seqId, -⟩ := written a (by omega)
      exact Or.inl ⟨a, by omega, rfl, pos, seqId⟩
    · exact Or.inr ⟨by omega, kept i (by omega)⟩
  intro i j upto id left right
  rcases cases i with ⟨a, aInside, rfl, aPos, aSeq⟩ | ⟨iOutside, iKept⟩
  · rw [aSeq, mem_toFinset] at left
    rw [aPos]
    rcases cases j with ⟨b, bInside, rfl, bPos, bSeq⟩ | ⟨jOutside, jKept⟩
    · rw [bSeq, mem_toFinset] at right
      rw [bPos]
      rcases (show a ≤ b by omega).eq_or_lt with rfl | below
      · exact le_refl _
      · exact pairwise_iff_getElem.mp sorted a b aInside bInside below id left right
    · rw [jKept] at right ⊢
      have placed := around j (KvCache.inside_of_owns right) id right _
        (getElem_mem aInside) left
      rwa [if_neg (by omega)] at placed
  · rw [iKept] at left ⊢
    rcases cases j with ⟨b, bInside, rfl, bPos, bSeq⟩ | ⟨jOutside, jKept⟩
    · rw [bSeq, mem_toFinset] at right
      rw [bPos]
      have placed := around i (KvCache.inside_of_owns left) id left _
        (getElem_mem bInside) right
      rwa [if_pos (by omega)] at placed
    · rw [jKept] at right ⊢
      exact ordered i j upto id left right

theorem cacheStep_ordered {c : KvCache} (op : CacheOp) (plain : c.Plain) (exact_ : c.Exact)
    (valid : op.Valid) (ordered : c.Ordered) (keeps : (ContextOp.cache op).KeepsOrder env c)
    (stepped : cacheStep c op = some c') : c'.Ordered := by
  have exactAfter := (cacheStep_exact c c' op plain exact_ valid stepped).1
  cases op with
  | searchFromStart nTokens =>
    simp only [cacheStep, searchFromStart, Option.some.injEq] at stepped
    subst c'
    split <;> exact ordered
  | findSlot batch embdToken meta_ =>
    simp only [cacheStep] at stepped
    simp only [ContextOp.KeepsOrder] at keeps
    cases searched : kvCacheFindSlot c batch embdToken meta_ with
    | mk found placed =>
      rw [searched] at stepped keeps
      cases found with
      | false =>
        obtain ⟨head, _, same⟩ :=
          kvCacheFindSlot_full c placed batch embdToken meta_ plain.recurrent exact_.head
            searched
        rw [← Option.some.inj stepped, same]
        exact ordered
      | true =>
        have kept : placed.Ordered :=
          findSlot_ordered plain exact_ ordered (keeps rfl) searched
        exact (Option.some.inj stepped) ▸ kept
  | seqRm seqId p0 p1 =>
    simp only [cacheStep, kvCacheSeqRm_plain c _ _ _ plain, Option.map_some,
      Option.some.injEq] at stepped
    subst c'
    exact ordered.of_repositions (sweep_repositions (seqRmVisit_repositions _ _ _ _) rfl)
  | seqCp src dst p0 p1 => exact seqCp_ordered plain exact_ ordered keeps stepped
  | seqKeep seqId =>
    simp only [cacheStep, Option.some.injEq] at stepped
    subst c'
    exact ordered.of_repositions (sweep_repositions (seqKeepVisit_repositions _ _) rfl)
  | seqAdd seqId p0 p1 delta =>
    obtain ⟨-, rfl⟩ | rfl := kvCacheSeqAdd_plain plain stepped
    · exact ordered
    · exact keeps.ordered exactAfter
        (sweep_repositions (seqAddVisit_repositions _ _ _ _ _) rfl)
  | seqDiv seqId p0 p1 d =>
    obtain ⟨-, rfl⟩ | rfl := kvCacheSeqDiv_plain plain stepped
    · exact ordered
    · exact keeps.ordered exactAfter
        (sweep_repositions (fun i cell _ => seqDivVisit_repositions _ _ _ _ _ i cell) rfl)
  | clear =>
    rw [← Option.some.inj stepped]
    exact ordered_of_empty fun cell member => (kvCacheClear_empty c cell member).2

theorem ready_tags (env : ContextEnv) (c : KvCache) :
    (applyStateCopy (applyShift env c)).cells.map KvCell.tag = c.cells.map KvCell.tag := by
  have shifted : (applyShift env c).cells.map KvCell.tag = c.cells.map KvCell.tag := by
    unfold applyShift
    split
    · simp only [kShift, map_map]
      rfl
    · rfl
  rw [← shifted]
  unfold applyStateCopy
  split
  · apply ext_getElem <;> simp [stateCopy, KvCell.tag]
  · rfl

theorem ready_doDefrag (env : ContextEnv) (c : KvCache) :
    (applyStateCopy (applyShift env c)).doDefrag = c.doDefrag := by
  have shifted : (applyShift env c).doDefrag = c.doDefrag := by
    unfold applyShift
    split <;> rfl
  rw [← shifted]
  unfold applyStateCopy
  split <;> rfl

theorem update_ordered {c : KvCache} {updated : Bool} (exact_ : c.Exact) (ordered : c.Ordered)
    (keeps : DefragsInOrder env c) (success : kvCacheUpdate env c = some (updated, c')) :
    c'.Ordered := by
  rcases kvCacheUpdate_cases success with ⟨_, refused⟩ | ⟨_, ran⟩
  · exact refused ▸ ordered
  · have readyExact := (applyStateCopy_exact (applyShift_exact env exact_)).usedExact
    have cell : ∀ i, ((applyStateCopy (applyShift env c)).cell i).pos = (c.cell i).pos ∧
        ((applyStateCopy (applyShift env c)).cell i).seqId = (c.cell i).seqId := fun i =>
      have same := KvCell.tag_eq (getD_congr_map KvCell.tag (ready_tags env c) i)
      ⟨same.1, same.2.2⟩
    obtain ⟨s, frontier, result, state, -⟩ :=
      kvCacheDefragInternal_state readyExact env.maxMoves
    unfold applyDefrag at ran
    rw [ready_doDefrag, result] at ran
    split at ran
    · rename_i pending
      rw [← Option.some.inj ran]
      intro k l upto id left right
      -- each cell is where the pass moved an old cell to, with its content
      obtain ⟨i, iUsed, rfl⟩ :=
        state.origin k ((KvCell.isEmpty_false_iff _).mpr ⟨id, left⟩)
      obtain ⟨j, jUsed, rfl⟩ :=
        state.origin l ((KvCell.isEmpty_false_iff _).mpr ⟨id, right⟩)
      change id ∈ (s.cell _).seqId at left right
      change (s.cell _).pos ≤ (s.cell _).pos
      rcases upto.eq_or_lt with same | below
      · rw [same]
      · rw [state.cell_newIndex i iUsed, (cell i).2] at left
        rw [state.cell_newIndex j jUsed, (cell j).2] at right
        rw [state.cell_newIndex i iUsed, state.cell_newIndex j jUsed,
          (cell i).1, (cell j).1]
        exact keeps pending s result i (KvCache.inside_of_owns left) j
          (KvCache.inside_of_owns right) below id left right
    · rw [← Option.some.inj ran]
      exact ordered.of_repositions (repositions_of_tags (ready_tags env c))

theorem contextStep_ordered {c : KvCache} {op : ContextOp} (plain : c.Plain) (exact_ : c.Exact)
    (valid : op.Valid) (keeps : op.KeepsOrder env c) (ordered : c.Ordered)
    (stepped : contextStep env c op = some c') : c'.Ordered := by
  cases op with
  | cache op => exact cacheStep_ordered op plain exact_ valid ordered keeps stepped
  | defrag =>
    rw [← Option.some.inj stepped]
    unfold kvCacheDefrag
    split <;> exact ordered
  | update =>
    obtain ⟨⟨updated, last⟩, ran, equal⟩ := Option.map_eq_some_iff.mp stepped
    cases equal
    exact update_ordered exact_ ordered keeps ran
  | readState destSeqId saved dataRead => exact keeps.elim

theorem kvCacheInit_ordered (cfg : KvConfig) (kvSize : Nat) : (kvCacheInit cfg kvSize).Ordered := by
  refine ordered_of_empty fun cell member => ?_
  obtain ⟨i, -, rfl⟩ := mem_map.mp member
  split <;> rfl

/-- In every state a context reaches, `seq_pos_max` is the largest position of a sequence, and
`seq_pos_min` the smallest one exactly when the first cell of the sequence holds it.  Along a run
whose steps keep the order of the cells it always does. -/
theorem reachable_seqPos (env : ContextEnv) (cfg : KvConfig) (kvSize : Nat)
    (transformer : cfg.recurrent = false) :
    (∀ c, Reaches (contextStep env) (fun _ op => op.Valid) (kvCacheInit cfg kvSize) c →
      ∀ seqId, (c.positions seqId).Nonempty →
        IsGreatest (c.positions seqId) (kvCacheSeqPosMax c seqId) ∧
          (IsLeast (c.positions seqId) (kvCacheSeqPosMin c seqId) ↔ LeastFirst c seqId)) ∧
    ∀ c, Reaches (contextStep env) (fun c op => op.Valid ∧ op.KeepsOrder env c)
        (kvCacheInit cfg kvSize) c →
      ∀ seqId, (c.positions seqId).Nonempty →
        IsGreatest (c.positions seqId) (kvCacheSeqPosMax c seqId) ∧
          IsLeast (c.positions seqId) (kvCacheSeqPosMin c seqId) := by
  constructor
  · intro c run seqId owned
    obtain ⟨exact_, -, -⟩ := context_reaches_exact env cfg kvSize transformer c run
    exact ⟨kvCacheSeqPosMax_isGreatest exact_ owned, kvCacheSeqPosMin_isLeast_iff owned⟩
  · intro c run seqId owned
    have holds : c.Exact ∧ c.Plain ∧ c.Ordered :=
      run.invariant (fun c => c.Exact ∧ c.Plain ∧ c.Ordered)
        ⟨kvCacheInit_exact cfg kvSize, kvCacheInit_plain cfg kvSize transformer,
          kvCacheInit_ordered cfg kvSize⟩
        (fun state op next holds allowed stepped => by
          obtain ⟨exact_, plain, ordered⟩ := holds
          obtain ⟨nextExact, nextPlain⟩ :=
            contextStep_exact env state next op plain exact_ allowed.1 stepped
          exact ⟨nextExact, nextPlain,
            contextStep_ordered plain exact_ allowed.1 allowed.2 ordered stepped⟩)
    exact ⟨kvCacheSeqPosMax_isGreatest holds.1 owned,
      (kvCacheSeqPosMin_isLeast_iff owned).mpr (holds.2.2.leastFirst owned)⟩

def positionsBatch (positions : List Int) : Batch where
  tokens := positions.map fun pos => { token := 7, pos := pos, seqIds := [0] }

def shiftedOps : List ContextOp :=
  [.cache (.findSlot (positionsBatch [0, 1, 2]) tokenNull true), .cache (.seqRm 0 1 2),
    .cache (.seqAdd 0 2 3 (-1)), .defrag, .update]

theorem shiftedOps_run : (runChecked (contextStep {})
    (fun c op => op.Valid ∧ op.KeepsOrder {} c) (kvCacheInit {} 4) shiftedOps).isSome = true := by
  decide +kernel

def shiftedCache : KvCache := (runChecked (contextStep {})
  (fun c op => op.Valid ∧ op.KeepsOrder {} c) (kvCacheInit {} 4) shiftedOps).get shiftedOps_run

theorem reachable_seqPos_at_shifted :
    IsGreatest (shiftedCache.positions 0) 1 ∧ IsLeast (shiftedCache.positions 0) 0 := by
  have reached : Reaches (contextStep {}) (fun c op => op.Valid ∧ op.KeepsOrder {} c)
      (kvCacheInit {} 4) shiftedCache :=
    reaches_of_runChecked shiftedOps _ _ (Option.some_get shiftedOps_run).symm
  have owned : (shiftedCache.positions 0).Nonempty :=
    ⟨0, mem_positions.mpr ⟨0, by decide +kernel, by decide +kernel⟩⟩
  have greatest : kvCacheSeqPosMax shiftedCache 0 = 1 := by decide +kernel
  have least : kvCacheSeqPosMin shiftedCache 0 = 0 := by decide +kernel
  have ends := (reachable_seqPos {} {} 4 rfl).2 shiftedCache reached 0 owned
  rwa [greatest, least] at ends

def refilledOps : List ContextOp :=
  [.cache (.findSlot (positionsBatch [0, 1]) tokenNull true), .cache (.seqRm 0 0 1),
    .cache (.findSlot (positionsBatch [2]) tokenNull true)]

theorem refilledOps_run : (runChecked (contextStep {}) (fun _ op => op.Valid)
    (kvCacheInit {} 4) refilledOps).isSome = true := by
  decide +kernel

def refilledCache : KvCache :=
  (runChecked (contextStep {}) (fun _ op => op.Valid) (kvCacheInit {} 4) refilledOps).get
    refilledOps_run

/-- `seq_pos_min` then returns 2, while position 1 is stored. -/
theorem seqPosMin_not_smallest :
    ¬ ∀ (env : ContextEnv) (cfg : KvConfig) (kvSize : Nat), cfg.recurrent = false →
      ∀ c, Reaches (contextStep env) (fun _ op => op.Valid) (kvCacheInit cfg kvSize) c →
      ∀ seqId, (c.positions seqId).Nonempty →
        IsLeast (c.positions seqId) (kvCacheSeqPosMin c seqId) ∧
          IsGreatest (c.positions seqId) (kvCacheSeqPosMax c seqId) := by
  intro claimed
  have reached : Reaches (contextStep {}) (fun _ op => op.Valid) (kvCacheInit {} 4)
      refilledCache :=
    reaches_of_runChecked refilledOps _ _ (Option.some_get refilledOps_run).symm
  have stored : 1 ∈ refilledCache.positions 0 :=
    mem_positions.mpr ⟨1, by decide +kernel, by decide +kernel⟩
  have result : kvCacheSeqPosMin refilledCache 0 = 2 := by decide +kernel
  have least := (claimed {} {} 4 rfl refilledCache reached 0 ⟨1, stored⟩).1.2 stored
  rw [result] at least
  exact absurd least (by decide)

/-- In a state a context reaches, a search fails only for want of a run of empty cells. -/
theorem reachable_findSlot_iff (env : ContextEnv) (cfg : KvConfig) (kvSize : Nat)
    (transformer : cfg.recurrent = false) (c : KvCache)
    (run : Reaches (contextStep env) (fun _ op => op.Valid) (kvCacheInit cfg kvSize) c)
    (batch : Batch) (embdToken : Int) (meta_ : Bool) :
    (kvCacheFindSlot c batch embdToken meta_).1 = true ↔
      ∃ start, EmptyRun c batch.tokens.length start := by
  obtain ⟨exact_, plain, -⟩ := context_reaches_exact env cfg kvSize transformer c run
  constructor
  · intro found
    obtain ⟨empty, -⟩ := kvCacheFindSlot_writes exact_.placedExactly plain.recurrent exact_.head
      (Prod.ext found rfl)
    exact ⟨_, empty⟩
  · rintro ⟨start, empty⟩
    exact kvCacheFindSlot_finds exact_.placedExactly plain.recurrent exact_.head batch embdToken
      meta_ empty

theorem reachable_findSlot_iff_at_refilled :
    (kvCacheFindSlot refilledCache (positionsBatch [3, 4]) tokenNull).1 = true :=
  (reachable_findSlot_iff {} {} 4 rfl refilledCache
    (reaches_of_runChecked refilledOps _ _ (Option.some_get refilledOps_run).symm)
    (positionsBatch [3, 4]) tokenNull true).mpr ⟨2, by decide +kernel⟩

end LlamaCpp.Kv
