import LlamaCpp.Kv.EntryRuns

/-!
# Cells that sequences share

`seq_cp` adds a sequence to the cells of another one, and a cell has one position.
`seq_add` and `seq_div` on one sequence therefore carry along what other sequences
hold in the cells that they move.
-/

set_option autoImplicit false

namespace LlamaCpp.Kv

open LlamaCpp.Lib

def KvCache.ofSeq (c : KvCache) (t : Int) : Set (Int × Int) := {e | (t, e) ∈ c.entries}

/-- The cell that `seq_add` and `seq_div` on the sequence move. -/
def KvCell.Moves (seqId p0 p1 : Int) (cell : KvCell) : Prop :=
  cell.inSeqRange seqId (rangeLow p0) (rangeHigh p1) = true

def KvCache.restOf (c : KvCache) (seqId p0 p1 t : Int) : Set (Int × Int) :=
  {e | ∃ cell ∈ c.cells, ¬ cell.Moves seqId p0 p1 ∧ cell.Holds (t, e)}

def KvCache.movedOf (c : KvCache) (seqId p0 p1 t : Int) (f : Int → Int) : Set (Int × Int) :=
  {e | ∃ cell ∈ c.cells, cell.Moves seqId p0 p1 ∧ t ∈ cell.seqId ∧ e = (f cell.pos, cell.token)}

variable {c c' : KvCache} {seqId p0 p1 t : Int}

theorem ofSeq_of_visit {visit : Nat → KvCell → KvCell} {f : Int → Int} {kept : Int × Int → Prop}
    (cells : c'.cells = c.cells.mapIdx visit)
    (stays : ∀ i cell, ¬ cell.Moves seqId p0 p1 → visit i cell = cell)
    (moves : ∀ i cell e, cell.Moves seqId p0 p1 →
      ((visit i cell).Holds e ↔ e.1 ∈ cell.seqId ∧ e.2 = (f cell.pos, cell.token) ∧ kept e.2)) :
    c'.ofSeq t = c.restOf seqId p0 p1 t ∪ {e ∈ c.movedOf seqId p0 p1 t f | kept e} := by
  ext e
  change (t, e) ∈ entriesOf c'.cells ↔ _
  rw [cells, mem_entriesOf_mapIdx c.cells visit fun cell e =>
    ¬ cell.Moves seqId p0 p1 ∧ cell.Holds e ∨ cell.Moves seqId p0 p1 ∧
      e.1 ∈ cell.seqId ∧ e.2 = (f cell.pos, cell.token) ∧ kept e.2]
  · constructor
    · rintro ⟨cell, member, ⟨stay, holds⟩ | ⟨move, shared, same, keep⟩⟩
      · exact Or.inl ⟨cell, member, stay, holds⟩
      · exact Or.inr ⟨⟨cell, member, move, shared, same⟩, keep⟩
    · rintro (⟨cell, member, stay, holds⟩ | ⟨⟨cell, member, move, shared, same⟩, keep⟩)
      · exact ⟨cell, member, Or.inl ⟨stay, holds⟩⟩
      · exact ⟨cell, member, Or.inr ⟨move, shared, same, keep⟩⟩
  · intro i cell _ e
    by_cases move : cell.Moves seqId p0 p1
    · rw [moves i cell e move]
      simp [move]
    · rw [stays i cell move]
      simp [move]

theorem not_moves_of_empty (empty : rangeLow p0 = rangeHigh p1) (cell : KvCell) :
    ¬ cell.Moves seqId p0 p1 := by
  simp only [KvCell.Moves, KvCell.inSeqRange, Bool.and_eq_true, decide_eq_true_eq]
  omega

theorem ofSeq_eq_restOf (none_ : ∀ cell ∈ c.cells, cell.Moves seqId p0 p1 → t ∉ cell.seqId) :
    c.ofSeq t = c.restOf seqId p0 p1 t := by
  ext e
  constructor
  · rintro ⟨cell, member, holds⟩
    exact ⟨cell, member, fun move => none_ cell member move holds.1, holds⟩
  · rintro ⟨cell, member, _, holds⟩
    exact ⟨cell, member, holds⟩

theorem movedOf_eq_empty (f : Int → Int)
    (none_ : ∀ cell ∈ c.cells, cell.Moves seqId p0 p1 → t ∉ cell.seqId) :
    c.movedOf seqId p0 p1 t f = ∅ := by
  ext e
  refine iff_of_false ?_ (Set.notMem_empty e)
  rintro ⟨cell, member, move, shared, -⟩
  exact none_ cell member move shared

theorem seqAddVisit_moves {mrope : Bool} {delta : Int} (i : Nat) (cell : KvCell) (e : Entry)
    (move : cell.Moves seqId p0 p1) :
    (seqAddVisit mrope seqId (rangeLow p0) (rangeHigh p1) delta i cell).cell.Holds e ↔
      e.1 ∈ cell.seqId ∧ e.2 = (cell.pos + delta, cell.token) ∧ 0 ≤ e.2.1 := by
  have inside : cell.inSeqRange seqId (rangeLow p0) (rangeHigh p1) = true := move
  rw [seqAddVisit, if_pos inside]
  have moved : (cell.addDelta mrope delta).Holds e ↔
      e.1 ∈ cell.seqId ∧ e.2 = (cell.pos + delta, cell.token) := by
    simp [KvCell.Holds, KvCell.addDelta, Prod.ext_iff]
  split
  · rename_i negative
    refine iff_of_false (KvCell.not_release_holds _ e) ?_
    rintro ⟨-, same, nonneg⟩
    rw [same] at nonneg
    exact absurd nonneg (not_le.mpr negative)
  · rename_i nonneg
    rw [moved, ← and_assoc]
    refine (and_iff_left_of_imp fun both => ?_).symm
    rw [both.2]
    exact not_lt.mp nonneg

theorem seqAdd_ofSeq {delta : Int} (transformer : c.recurrent = false)
    (stepped : kvCacheSeqAdd c seqId p0 p1 delta = some c') :
    c'.ofSeq t = c.restOf seqId p0 p1 t ∪
      {e ∈ c.movedOf seqId p0 p1 t (· + delta) | 0 ≤ e.1} := by
  have whole : c.compacted = false := by
    by_contra compacted
    simp [kvCacheSeqAdd, compacted] at stepped
  obtain ⟨empty, rfl⟩ | rfl := kvCacheSeqAdd_plain ⟨transformer, whole⟩ stepped
  · have none_ : ∀ cell ∈ c'.cells, cell.Moves seqId p0 p1 → t ∉ cell.seqId :=
      fun cell _ move => absurd move (not_moves_of_empty empty cell)
    rw [movedOf_eq_empty _ none_, ofSeq_eq_restOf none_]
    simp
  · refine ofSeq_of_visit (c.sweep_cells _) (fun i cell stay => ?_) fun i cell e move =>
      seqAddVisit_moves i cell e move
    have outside : ¬ cell.inSeqRange seqId (rangeLow p0) (rangeHigh p1) = true := stay
    rw [seqAddVisit, if_neg outside]

theorem seqDiv_ofSeq {d : Int} (transformer : c.recurrent = false)
    (stepped : kvCacheSeqDiv c seqId p0 p1 d = some c') :
    c'.ofSeq t = c.restOf seqId p0 p1 t ∪ c.movedOf seqId p0 p1 t (·.tdiv d) := by
  have whole : c.compacted = false := by
    by_contra compacted
    simp [kvCacheSeqDiv, compacted] at stepped
  obtain ⟨empty, rfl⟩ | rfl := kvCacheSeqDiv_plain ⟨transformer, whole⟩ stepped
  · have none_ : ∀ cell ∈ c'.cells, cell.Moves seqId p0 p1 → t ∉ cell.seqId :=
      fun cell _ move => absurd move (not_moves_of_empty empty cell)
    rw [movedOf_eq_empty _ none_, ofSeq_eq_restOf none_, Set.union_empty]
  · have all : {e ∈ c.movedOf seqId p0 p1 t (·.tdiv d) | True} =
        c.movedOf seqId p0 p1 t (·.tdiv d) := Set.sep_true
    rw [← all]
    refine ofSeq_of_visit (c.sweep_cells _) (fun i cell stay => ?_) fun i cell e move => ?_
    · have outside : ¬ cell.inSeqRange seqId (rangeLow p0) (rangeHigh p1) = true := stay
      rw [seqDivVisit, if_neg outside]
    · have inside : cell.inSeqRange seqId (rangeLow p0) (rangeHigh p1) = true := move
      rw [seqDivVisit, if_pos inside]
      simp [KvCell.Holds, KvCell.divide, Prod.ext_iff]

end LlamaCpp.Kv
