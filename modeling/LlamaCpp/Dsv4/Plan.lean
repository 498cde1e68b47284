import LlamaCpp.Kv.CellMax
import LlamaCpp.Lib.Scatter
import Mathlib.Data.List.Sort

/-!
# The plan of a batch of compressed attention

`buildCompPlan` lists, for one batch, which rows of the state ring and of the batch each
completed block pools, where the block goes in the compressed cache, and which rows of the
batch stay in the ring for later.  The rows a plan reads are numbered with the ring first,
then the batch, then one row of padding.
-/

set_option autoImplicit false

namespace LlamaCpp.Dsv4

open LlamaCpp.Lib List

/-- One token of a `llama_batch`; `none` stands for a null `seq_id` array. -/
structure Token where
  pos : Int
  seqIds : Option (List Int)
deriving DecidableEq, Repr

/-- The sequences the loops over `n_token_seqs` go through. -/
def Token.seqs (token : Token) : List Int := token.seqIds.getD [0]

abbrev Batch := List Token

/-- The arguments of `dsv4_build_comp_plan` besides the batch. -/
structure CompShape where
  ratio : Nat
  overlap : Bool
  stateSize : Nat
  kvSize : Nat
  nStream : Nat

structure CompPlan where
  statePos : List Int := []
  stateDeltaSrcIdxs : List Nat := []
  stateDeltaDstIdxs : List Int := []
  statePersistSrcIdxs : List Nat := []
  statePersistDstIdxs : List Int := []
  stateReadIdxs : List Int := []
  stateWriteIdxs : List Int := []
  stateWritePos : List Int := []
  nVisible : List Int := []
  nStream : Nat := 1
  nKv : Nat := 0

def csaRatio : Nat := 4

def hcaRatio : Nat := 128

def batchUniqueSeqIds (batch : Batch) : List Int :=
  let seqIds := (batch.flatMap fun token => token.seqIds.getD []).eraseDups
  if seqIds.isEmpty then [0] else seqIds

def batchHasCoupled (batch : Batch) : Bool :=
  batch.any fun token => decide (1 < (token.seqIds.getD []).length)

def compGraphNStream (batch : Batch) (nStream : Nat) : Nat :=
  if nStream ≤ 1 then 1
  else if (batchUniqueSeqIds batch).length ≤ 1 ∨ batchHasCoupled batch = true then 1
  else (batchUniqueSeqIds batch).length

def streamOffset (nStream : Nat) (seqId : Int) (size : Nat) : Int :=
  if nStream ≤ 1 then 0
  else if seqId < 0 ∨ (nStream : Int) ≤ seqId then -1
  else seqId * size

/-- `curr_token_idx_map`: a later token with the same sequence and position replaces an
earlier one. -/
def currTokenIdx (batch : Batch) (seqId pos : Int) : Option Nat :=
  batch.zipIdx.foldl
    (fun found entry => if seqId ∈ entry.1.seqs ∧ entry.1.pos = pos then some entry.2 else found)
    none

namespace CompShape

variable (shape : CompShape)

def stateRows : Int := shape.stateSize * shape.nStream

def stateSourceIdx (batch : Batch) (seqId pos : Int) : Int :=
  if pos < 0 then shape.stateRows + batch.length
  else
    match currTokenIdx batch seqId pos with
    | some i => shape.stateRows + i
    | none => streamOffset shape.nStream seqId shape.stateSize + pos % shape.stateSize

def stateIdx (seqId pos : Int) : Int :=
  streamOffset shape.nStream seqId shape.stateSize + pos % shape.stateSize

end CompShape

structure Visit where
  idx : Nat
  pos : Int
  seqId : Int
deriving DecidableEq, Repr

def tokenVisits (entry : Token × Nat) : List Visit :=
  if entry.1.pos < 0 then [] else entry.1.seqs.map fun seqId => ⟨entry.2, entry.1.pos, seqId⟩

def visits (batch : Batch) : List Visit := batch.zipIdx.flatMap tokenVisits

structure PersistRow where
  dst : Int
  src : Nat
  pos : Int
deriving DecidableEq, Repr

/-- `find_if` on the destination: a new row, or a later position for the row found. -/
def persist (rows : List PersistRow) (row : PersistRow) : List PersistRow :=
  match rows with
  | [] => [row]
  | found :: rest =>
    if found.dst = row.dst then
      (if found.pos < row.pos then ⟨found.dst, row.src, row.pos⟩ else found) :: rest
    else found :: persist rest row

def paddedNKv (visible : List Int) : Nat :=
  let padded := Kv.ggmlPad (visible.foldl max 0).toNat 256
  if padded = 0 then Kv.ggmlPad 1 256 else padded

namespace CompShape

variable (shape : CompShape)

def persistRows (batch : Batch) : List PersistRow :=
  (visits batch).foldl
    (fun rows visit => persist rows ⟨shape.stateIdx visit.seqId visit.pos, visit.idx, visit.pos⟩)
    []

def completed (batch : Batch) : List Visit :=
  (visits batch).filter fun visit => decide ((visit.pos + 1) % shape.ratio = 0)

def sourceStart (visit : Visit) : Int := visit.pos + 1 - shape.ratio

/-- The rows of `ratio` positions of a sequence. -/
def sourceReads (batch : Batch) (seqId start : Int) : List Int :=
  (List.range shape.ratio).map fun j : Nat => shape.stateSourceIdx batch seqId (start + j)

/-- `overlap_prev_reads`, `overlap_cur_reads` (all of `state_read_idxs` without overlap),
`state_write_idxs` and `state_write_pos`. -/
structure BlockReads where
  prevReads : List Int
  curReads : List Int
  writeIdxs : List Int
  writePos : List Int

def completedReads (batch : Batch) : BlockReads :=
  let blocks := shape.completed batch
  { prevReads := if shape.overlap then
      blocks.flatMap fun visit =>
        shape.sourceReads batch visit.seqId (shape.sourceStart visit - shape.ratio)
      else []
    curReads := blocks.flatMap fun visit =>
      shape.sourceReads batch visit.seqId (shape.sourceStart visit)
    writeIdxs := blocks.map fun visit =>
      streamOffset shape.nStream visit.seqId shape.kvSize + visit.pos / shape.ratio
    writePos := blocks.map shape.sourceStart }

def placeholderReads (batch : Batch) (first : Token) : BlockReads :=
  let seqId := first.seqs.headD 0
  let source := shape.stateSourceIdx batch seqId first.pos
  { prevReads := if shape.overlap then List.replicate shape.ratio source else []
    curReads := List.replicate shape.ratio source
    writeIdxs := [max 0 (streamOffset shape.nStream seqId shape.kvSize) + shape.kvSize - 1]
    writePos := [0] }

def blockReads (batch : Batch) : BlockReads :=
  match batch with
  | [] => shape.completedReads batch
  | first :: _ =>
    if shape.ratio = csaRatio ∧ (shape.completed batch).isEmpty ∧
        (batch.any fun token => decide (0 ≤ token.pos)) = true then
      shape.placeholderReads batch first
    else shape.completedReads batch

def nVisibleOf (token : Token) : Int :=
  if token.pos < 0 then 0 else (token.pos + 1) / shape.ratio

def buildCompPlan (batch : Batch) : CompPlan :=
  let nStream := compGraphNStream batch shape.nStream
  if shape.nStream ≤ 1 ∧ 1 < (batchUniqueSeqIds batch).length then
    { nVisible := batch.map fun _ => 0, nStream := nStream }
  else
    let rows := batch.zipIdx.filter fun entry => decide (0 ≤ entry.1.pos)
    let reads := shape.blockReads batch
    let persisted := (shape.persistRows batch).insertionSort fun a b => a.dst ≤ b.dst
    { statePos := rows.map fun entry => entry.1.pos % shape.ratio
      stateDeltaSrcIdxs := rows.map Prod.snd
      stateDeltaDstIdxs := rows.map fun entry =>
        shape.stateIdx (entry.1.seqs.headD 0) entry.1.pos
      statePersistSrcIdxs := persisted.map PersistRow.src
      statePersistDstIdxs := persisted.map PersistRow.dst
      stateReadIdxs := reads.prevReads ++ reads.curReads
      stateWriteIdxs := reads.writeIdxs
      stateWritePos := reads.writePos
      nVisible := batch.map shape.nVisibleOf
      nStream := nStream
      nKv := paddedNKv (batch.map shape.nVisibleOf) }

end CompShape

theorem streamOffset_eq {nStream : Nat} {seqId : Int} (low : 0 ≤ seqId) (high : seqId < nStream)
    (size : Nat) : streamOffset nStream seqId size = seqId * size := by
  unfold streamOffset
  split
  · have only : seqId = 0 := by omega
    rw [only, Int.zero_mul]
  · rw [if_neg (by omega)]

theorem batchUniqueSeqIds_le {batch : Batch} (seqId : Int)
    (only : ∀ token ∈ batch, ∀ other ∈ token.seqs, other = seqId) :
    (batchUniqueSeqIds batch).length ≤ 1 := by
  have same : ∀ other ∈ batch.flatMap fun token => token.seqIds.getD [], other = seqId := by
    intro other member
    obtain ⟨token, inBatch, inIds⟩ := mem_flatMap.mp member
    refine only token inBatch other ?_
    unfold Token.seqs
    cases ids : token.seqIds with
    | none => simp [ids] at inIds
    | some seqs => simpa [ids] using inIds
  unfold batchUniqueSeqIds
  generalize batch.flatMap (fun token => token.seqIds.getD []) = seqIds at same
  cases seqIds with
  | nil => simp
  | cons first rest =>
    have nothing : rest.filter (fun b => !b == first) = [] := by
      rw [filter_eq_nil_iff]
      intro other member
      rw [same other (mem_cons_of_mem _ member), same first mem_cons_self]
      simp
    simp [eraseDups_cons, nothing]

namespace CompShape

variable {shape : CompShape}

def InStream (shape : CompShape) (seqId : Int) : Prop := 0 ≤ seqId ∧ seqId < shape.nStream

variable {seqId : Int}

section

variable (stream : shape.InStream seqId)
include stream

theorem stateIdx_eq (pos : Int) :
    shape.stateIdx seqId pos = seqId * shape.stateSize + pos % shape.stateSize := by
  rw [stateIdx, streamOffset_eq stream.1 stream.2]

theorem stateIdx_lt (sized : 0 < shape.stateSize) (pos : Int) :
    shape.stateIdx seqId pos < shape.stateRows := by
  have slot : pos % (shape.stateSize : Int) < shape.stateSize :=
    Int.emod_lt_of_pos _ (by exact_mod_cast sized)
  have rows : (seqId + 1) * (shape.stateSize : Int) ≤ shape.nStream * shape.stateSize :=
    Int.mul_le_mul_of_nonneg_right (by have := stream.2; omega) (by omega)
  rw [stateIdx_eq stream, stateRows, Int.mul_comm (shape.stateSize : Int)]
  rw [Int.add_mul] at rows
  omega

theorem stateIdx_nonneg (sized : 0 < shape.stateSize) (pos : Int) :
    0 ≤ shape.stateIdx seqId pos := by
  have slot : 0 ≤ pos % (shape.stateSize : Int) := Int.emod_nonneg _ (by omega)
  have offset : 0 ≤ seqId * (shape.stateSize : Int) :=
    Int.mul_nonneg stream.1 (Int.natCast_nonneg _)
  rw [stateIdx_eq stream]
  omega

theorem stateIdx_inj {other : Int}
    (stream' : shape.InStream other) (sized : 0 < shape.stateSize) {pos pos' : Int}
    (same : shape.stateIdx seqId pos = shape.stateIdx other pos') :
    seqId = other ∧ pos % (shape.stateSize : Int) = pos' % (shape.stateSize : Int) := by
  have positive : (0 : Int) < shape.stateSize := by exact_mod_cast sized
  rw [stateIdx_eq stream, stateIdx_eq stream'] at same
  exact ring_injective positive
    ⟨Int.emod_nonneg _ positive.ne', Int.emod_lt_of_pos _ positive⟩
    ⟨Int.emod_nonneg _ positive.ne', Int.emod_lt_of_pos _ positive⟩ same

end

end CompShape

theorem mem_visits {batch : Batch} {visit : Visit} :
    visit ∈ visits batch ↔ ∃ token, (token, visit.idx) ∈ batch.zipIdx ∧ 0 ≤ token.pos ∧
      token.pos = visit.pos ∧ visit.seqId ∈ token.seqs := by
  simp only [visits, mem_flatMap, tokenVisits]
  constructor
  · rintro ⟨⟨token, i⟩, member, inToken⟩
    split at inToken
    · simp at inToken
    · rename_i notNeg
      obtain ⟨seqId, inSeqs, rfl⟩ := mem_map.mp inToken
      exact ⟨token, member, not_lt.mp notNeg, rfl, inSeqs⟩
  · intro ⟨token, member, nonneg, atPos, inSeqs⟩
    refine ⟨(token, visit.idx), member, ?_⟩
    rw [if_neg (not_lt.mpr nonneg), mem_map]
    exact ⟨visit.seqId, inSeqs, by rw [atPos]⟩

theorem currTokenIdx_cases (batch : Batch) (seqId pos : Int) :
    (∃ entry ∈ batch.zipIdx, seqId ∈ entry.1.seqs ∧ entry.1.pos = pos ∧
      currTokenIdx batch seqId pos = some entry.2) ∨
    (currTokenIdx batch seqId pos = none ∧
      ∀ entry ∈ batch.zipIdx, ¬ (seqId ∈ entry.1.seqs ∧ entry.1.pos = pos)) := by
  unfold currTokenIdx
  induction batch.zipIdx using List.reverseRecOn with
  | nil => exact .inr ⟨rfl, by simp⟩
  | append_singleton before entry ih =>
    rw [foldl_append, foldl_cons]
    by_cases hit : seqId ∈ entry.1.seqs ∧ entry.1.pos = pos
    · rw [if_pos hit]
      exact .inl ⟨entry, by simp, hit.1, hit.2, rfl⟩
    · rw [if_neg hit]
      rcases ih with ⟨found, member, inSeqs, atPos, result⟩ | ⟨result, missed⟩
      · exact .inl ⟨found, mem_append_left _ member, inSeqs, atPos, result⟩
      · refine .inr ⟨result, fun other member => ?_⟩
        rcases mem_append.mp member with old | new
        · exact missed other old
        · rw [mem_singleton.mp new]
          exact hit

structure Persisted (place : Visit → Int) (visited : List Visit) (rows : List PersistRow) :
    Prop where
  distinct : (rows.map PersistRow.dst).Nodup
  latest : ∀ row ∈ rows, (∃ visit ∈ visited, place visit = row.dst ∧ visit.idx = row.src ∧
    visit.pos = row.pos) ∧ ∀ visit ∈ visited, place visit = row.dst → visit.pos ≤ row.pos
  kept : ∀ visit ∈ visited, ∃ row ∈ rows, row.dst = place visit

theorem persist_dst (rows : List PersistRow) (row : PersistRow) :
    (persist rows row).map PersistRow.dst =
      if row.dst ∈ rows.map PersistRow.dst then rows.map PersistRow.dst
      else rows.map PersistRow.dst ++ [row.dst] := by
  induction rows with
  | nil => rfl
  | cons found rest ih =>
    rw [persist]
    by_cases same : found.dst = row.dst
    · simp only [same, if_true]
      split <;> simp [same]
    · have other : ¬ row.dst = found.dst := fun h => same h.symm
      simp only [same, if_false, map_cons, mem_cons, other, false_or, ih]
      split <;> rfl

/-- A row of the new list is an old row of another place, or the later of the new row and
the old row of its place. -/
theorem mem_persist {rows : List PersistRow} {row kept : PersistRow}
    (distinct : (rows.map PersistRow.dst).Nodup) (member : kept ∈ persist rows row) :
    (kept ∈ rows ∧ kept.dst ≠ row.dst) ∨
    (kept ∈ rows ∧ kept.dst = row.dst ∧ row.pos ≤ kept.pos) ∨
    (kept = row ∧ ∀ old ∈ rows, old.dst = row.dst → old.pos < row.pos) := by
  induction rows with
  | nil =>
    rw [persist, mem_singleton] at member
    exact .inr (.inr ⟨member, by simp⟩)
  | cons found rest ih =>
    rw [map_cons, nodup_cons] at distinct
    have apart : ∀ old ∈ rest, old.dst ≠ found.dst := fun old inRest same =>
      distinct.1 (same ▸ mem_map_of_mem inRest)
    rw [persist] at member
    by_cases same : found.dst = row.dst
    · rw [if_pos same] at member
      rcases mem_cons.mp member with rfl | inRest
      · by_cases later : found.pos < row.pos
        · refine .inr (.inr ⟨by rw [if_pos later, same], fun old inOld sameDst => ?_⟩)
          rcases mem_cons.mp inOld with rfl | inRest
          · exact later
          · exact absurd (sameDst.trans same.symm) (apart old inRest)
        · rw [if_neg later]
          exact .inr (.inl ⟨mem_cons_self, same, not_lt.mp later⟩)
      · refine .inl ⟨mem_cons_of_mem _ inRest, ?_⟩
        rw [← same]
        exact apart kept inRest
    · rw [if_neg same] at member
      rcases mem_cons.mp member with rfl | inRest
      · exact .inl ⟨mem_cons_self, same⟩
      · rcases ih distinct.2 inRest with ⟨old, other⟩ | ⟨old, at_, later⟩ | ⟨new, earlier⟩
        · exact .inl ⟨mem_cons_of_mem _ old, other⟩
        · exact .inr (.inl ⟨mem_cons_of_mem _ old, at_, later⟩)
        · refine .inr (.inr ⟨new, fun old inOld sameDst => ?_⟩)
          rcases mem_cons.mp inOld with rfl | inRest
          · exact absurd sameDst same
          · exact earlier old inRest sameDst

theorem Persisted.step {place : Visit → Int} {visited : List Visit} {rows : List PersistRow}
    (persisted : Persisted place visited rows) (visit : Visit) :
    Persisted place (visited ++ [visit])
      (persist rows ⟨place visit, visit.idx, visit.pos⟩) where
  distinct := by
    rw [persist_dst]
    split
    · exact persisted.distinct
    · rename_i absent
      exact List.Nodup.append persisted.distinct (nodup_singleton _)
        (disjoint_singleton.mpr absent)
  latest := by
    intro row member
    rcases mem_persist persisted.distinct member with ⟨old, other⟩ | ⟨old, same, later⟩ |
        ⟨rfl, earlier⟩
    · obtain ⟨⟨source, inVisited, at_⟩, last⟩ := persisted.latest row old
      refine ⟨⟨source, mem_append_left _ inVisited, at_⟩, fun v inAll samePlace => ?_⟩
      rcases mem_append.mp inAll with inOld | new
      · exact last v inOld samePlace
      · rw [mem_singleton.mp new] at samePlace
        exact absurd samePlace.symm other
    · obtain ⟨⟨source, inVisited, at_⟩, last⟩ := persisted.latest row old
      refine ⟨⟨source, mem_append_left _ inVisited, at_⟩, fun v inAll samePlace => ?_⟩
      rcases mem_append.mp inAll with inOld | new
      · exact last v inOld samePlace
      · rw [mem_singleton.mp new]
        exact later
    · refine ⟨⟨visit, by simp, rfl, rfl, rfl⟩, fun v inAll samePlace => ?_⟩
      rcases mem_append.mp inAll with inOld | new
      · obtain ⟨row, inRows, atPlace⟩ := persisted.kept v inOld
        have below := earlier row inRows (atPlace.trans samePlace)
        have last := (persisted.latest row inRows).2 v inOld atPlace.symm
        exact le_of_lt (lt_of_le_of_lt last below)
      · rw [mem_singleton.mp new]
  kept := by
    intro v inAll
    have places : place v ∈ (persist rows ⟨place visit, visit.idx, visit.pos⟩).map
        PersistRow.dst := by
      rw [persist_dst]
      rcases mem_append.mp inAll with inOld | new
      · obtain ⟨row, inRows, atPlace⟩ := persisted.kept v inOld
        have old : place v ∈ rows.map PersistRow.dst := atPlace ▸ mem_map_of_mem inRows
        split
        · exact old
        · exact mem_append_left _ old
      · rw [mem_singleton.mp new]
        split
        · assumption
        · simp
    obtain ⟨row, inRows, atPlace⟩ := mem_map.mp places
    exact ⟨row, inRows, atPlace⟩

theorem persistRows_persisted (shape : CompShape) (batch : Batch) :
    Persisted (fun visit => shape.stateIdx visit.seqId visit.pos) (visits batch)
      (shape.persistRows batch) := by
  unfold CompShape.persistRows
  induction visits batch using List.reverseRecOn with
  | nil =>
    exact ⟨nodup_nil, fun _ member => absurd member not_mem_nil,
      fun _ member => absurd member not_mem_nil⟩
  | append_singleton before visit ih =>
    rw [foldl_append, foldl_cons]
    exact ih.step visit

end LlamaCpp.Dsv4
