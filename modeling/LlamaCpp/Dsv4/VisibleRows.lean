import LlamaCpp.Dsv4.PlanRuns
import Mathlib.Tactic.Ring

/-!
# Every visible row holds its block

`Tracked.Sound` says which positions the ring and the compressed cache hold.  One batch
keeps it: the rows a completed block reads come from the ring when they are older than the
batch and from the batch otherwise, and the last rows of the batch replace the rows one
turn of the ring older.
-/

set_option autoImplicit false

namespace LlamaCpp.Dsv4

open LlamaCpp.Lib Option

variable {Row Block : Type*}

section Arithmetic

variable {ratio : Int}

theorem start_of_completed {pos : Int} (positive : 0 < ratio) (full : (pos + 1) % ratio = 0) :
    pos + 1 - ratio = pos / ratio * ratio := by
  obtain ⟨count, counted⟩ := Int.dvd_of_emod_eq_zero full
  have split : ratio - 1 + ratio * (count - 1) = pos := by
    rw [Int.mul_sub]
    omega
  have quotient : pos / ratio = count - 1 :=
    ((Int.ediv_emod_unique positive).mpr ⟨split, by omega, by omega⟩).1
  rw [quotient, Int.sub_mul, Int.one_mul, Int.mul_comm count ratio, ← counted]

theorem completed_of_last (positive : 0 < ratio) (j : Int) :
    (j * ratio + ratio - 1 + 1) % ratio = 0 ∧ (j * ratio + ratio - 1) / ratio = j := by
  have last : ratio - 1 + ratio * j = j * ratio + ratio - 1 := by ring
  constructor
  · rw [show j * ratio + ratio - 1 + 1 = ratio * (j + 1) by ring]
    exact Int.mul_emod_right _ _
  · exact ((Int.ediv_emod_unique positive).mpr ⟨last, by omega, by omega⟩).1

theorem lt_ediv_iff (positive : 0 < ratio) (j next : Int) :
    j < next / ratio ↔ j * ratio + ratio ≤ next := by
  rw [← Int.add_one_le_iff, Int.le_ediv_iff_mul_le positive, Int.add_mul, Int.one_mul]

theorem flatMap_block {α β : Type*} {f : α → List β} {size : Nat}
    (sized : ∀ a, (f a).length = size) {l : List α} {b : Nat} {a : α}
    (found : l[b]? = some a) : ((l.flatMap f).drop (size * b)).take size = f a := by
  induction l generalizing b with
  | nil => simp at found
  | cons first rest ih =>
    cases b with
    | zero =>
      obtain rfl : first = a := by simpa using found
      simp [sized first]
    | succ b =>
      have skip : size * (b + 1) = (f first).length + size * b := by
        rw [sized first, Nat.mul_succ, add_comm]
      rw [List.flatMap_cons, skip, List.drop_length_add_append, ih found]

theorem length_flatMap_block {α β : Type*} {f : α → List β} {size : Nat}
    (sized : ∀ a, (f a).length = size) (l : List α) :
    (l.flatMap f).length = size * l.length := by
  induction l with
  | nil => rfl
  | cons first rest ih =>
    rw [List.flatMap_cons, List.length_append, ih, sized first, List.length_cons, Nat.mul_succ,
      add_comm]

end Arithmetic

namespace CompShape

variable {shape : CompShape}

variable {next : Int → Int} {batch : Batch}

theorem Continues.one_stream (continues : shape.Continues next batch) :
    ¬ (shape.nStream ≤ 1 ∧ 1 < (batchUniqueSeqIds batch).length) := by
  intro ⟨single, many⟩
  refine absurd (batchUniqueSeqIds_le 0 fun token inBatch other inSeqs => ?_)
    (not_le.mpr many)
  obtain ⟨i, inside, at_⟩ := List.mem_iff_getElem.mp inBatch
  have entry : (token, i) ∈ batch.zipIdx := by
    rw [List.mem_zipIdx_iff_getElem?, List.getElem?_eq_getElem inside, at_]
  have stream := (continues.token entry inSeqs).1
  omega

theorem sourceReads_length (batch : Batch) (seqId start : Int) :
    (shape.sourceReads batch seqId start).length = shape.ratio := by
  simp [sourceReads]

theorem blockReads_halves (shape : CompShape) (batch : Batch) :
    (shape.blockReads batch).prevReads.length =
      if shape.overlap then (shape.blockReads batch).curReads.length else 0 := by
  have completedHalves : (shape.completedReads batch).prevReads.length =
      if shape.overlap then (shape.completedReads batch).curReads.length else 0 := by
    unfold completedReads
    cases shape.overlap with
    | true =>
      simp only [if_true]
      rw [length_flatMap_block (fun visit : Visit => sourceReads_length batch visit.seqId _),
        length_flatMap_block (fun visit : Visit => sourceReads_length batch visit.seqId _)]
    | false => rfl
  unfold blockReads
  split
  · exact completedHalves
  · split
    · unfold placeholderReads
      cases shape.overlap <;> simp
    · exact completedHalves

theorem Continues.plan (continues : shape.Continues next batch) :
    (shape.buildCompPlan batch).stateReadIdxs =
      (shape.blockReads batch).prevReads ++ (shape.blockReads batch).curReads ∧
    (shape.buildCompPlan batch).stateWriteIdxs = (shape.blockReads batch).writeIdxs ∧
    (shape.buildCompPlan batch).stateWritePos = (shape.blockReads batch).writePos ∧
    (shape.buildCompPlan batch).nVisible = batch.map shape.nVisibleOf := by
  unfold buildCompPlan
  rw [if_neg continues.one_stream]
  exact ⟨rfl, rfl, rfl, rfl⟩

/-- The indices of block `b` of the graph are block `b` of the plan's two lists. -/
theorem Continues.blockIdxs (continues : shape.Continues next batch) (b : Nat) :
    shape.curIdxs (shape.buildCompPlan batch) b =
      ((shape.blockReads batch).curReads.drop (shape.ratio * b)).take shape.ratio ∧
    (shape.ratio * b + shape.ratio ≤ (shape.blockReads batch).curReads.length →
      shape.prevIdxs (shape.buildCompPlan batch) b =
        ((shape.blockReads batch).prevReads.drop (shape.ratio * b)).take shape.ratio) := by
  have halves := blockReads_halves shape batch
  have reads := continues.plan.1
  unfold curIdxs prevIdxs
  rw [reads]
  cases overlap : shape.overlap with
  | true =>
    simp only [overlap, if_true] at halves ⊢
    have half : ((shape.blockReads batch).prevReads ++
        (shape.blockReads batch).curReads).length / 2 =
        (shape.blockReads batch).prevReads.length := by
      rw [List.length_append]
      omega
    refine ⟨by rw [half, List.drop_left], fun inside => ?_⟩
    rw [List.drop_append_of_le_length (by omega),
      List.take_append_of_le_length (by rw [List.length_drop]; omega)]
  | false =>
    simp only [overlap] at halves
    rw [List.length_eq_zero_iff.mp halves]
    simp

end CompShape

structure Tracked.Sound (shape : CompShape) (pool : List Row → List Row → Int → Block)
    (pad : Row) (tracked : Tracked Row Block) : Prop where
  started : ∀ seqId, 0 ≤ tracked.history.next seqId
  within : ∀ seqId, shape.InStream seqId →
    tracked.history.next seqId ≤ shape.kvSize * shape.ratio
  ring : ∀ seqId, shape.InStream seqId → ∀ pos, 0 ≤ pos →
    tracked.history.next seqId - shape.stateSize ≤ pos → pos < tracked.history.next seqId →
    tracked.mem.state (shape.stateIdx seqId pos) = tracked.history.row seqId pos
  blocks : ∀ seqId, shape.InStream seqId → ∀ j, 0 ≤ j →
    j < tracked.history.next seqId / shape.ratio →
    tracked.mem.cache (streamOffset shape.nStream seqId shape.kvSize + j) =
      shape.historyBlock pool pad tracked.history.row seqId j

structure CompShape.Sized (shape : CompShape) : Prop where
  positive : 0 < shape.ratio
  stateSize : shape.stateSize = if shape.overlap then 2 * shape.ratio else shape.ratio

theorem CompShape.Sized.ratio_le {shape : CompShape} (sized : shape.Sized) :
    shape.ratio ≤ shape.stateSize := by
  rw [sized.stateSize]
  split <;> omega

theorem CompShape.Sized.ring_pos {shape : CompShape} (sized : shape.Sized) :
    0 < shape.stateSize :=
  lt_of_lt_of_le sized.positive sized.ratio_le

section Batch

variable {shape : CompShape} {pool : List Row → List Row → Int → Block} {pad : Row}
  {tracked : Tracked Row Block} {feed : Feed Row}

variable {seqId pos : Int} {visit : Visit} {j : Int}

/-- A row named by `state_source_idx`: padding, a row of the batch or a row still in the
ring. -/
theorem source_of_pos (sized : shape.Sized) (sound : tracked.Sound shape pool pad)
    (continues : tracked.Accepts shape feed) (stream : shape.InStream seqId)
    (recent : tracked.history.next seqId - shape.stateSize ≤ pos)
    (reached : pos < (tracked.history.extend feed).next seqId) :
    shape.sourceRow feed.batch.length tracked.mem.state feed.rows pad
        (shape.stateSourceIdx feed.batch seqId pos) =
      if pos < 0 then pad
      else (tracked.history.extend feed).row seqId pos := by
  unfold CompShape.stateSourceIdx
  by_cases negative : pos < 0
  · rw [if_pos negative, if_pos negative, CompShape.sourceRow, if_neg (by omega),
      if_neg (by omega)]
  · rw [if_neg negative, if_neg negative]
    change _ = record tracked.history.row feed.rows feed.batch seqId pos
    rw [record_eq]
    rcases currTokenIdx_cases feed.batch seqId pos with
      ⟨found, inBatch, -, -, result⟩ | ⟨result, missed⟩
    · have inside : found.2 < feed.batch.length := by
        simpa using List.snd_lt_add_of_mem_zipIdx inBatch
      rw [result]
      simp only [CompShape.sourceRow]
      rw [if_neg (by omega), if_pos (by omega), add_sub_cancel_left]
      rfl
    · have old : pos < tracked.history.next seqId := by
        by_contra notOld
        obtain ⟨entry, member, inSeqs, at_⟩ :=
          continues.covered 0 (not_lt.mp notOld) reached
        exact missed entry member ⟨inSeqs, at_⟩
      rw [result]
      change CompShape.sourceRow shape _ _ _ _ (shape.stateIdx seqId pos) = _
      rw [CompShape.sourceRow, if_pos (CompShape.stateIdx_lt stream sized.ring_pos pos)]
      exact sound.ring seqId stream pos (not_lt.mp negative) recent old

/-- The rows of `ratio` positions in the reach of the ring. -/
theorem source_of_window (sized : shape.Sized) (sound : tracked.Sound shape pool pad)
    (continues : tracked.Accepts shape feed) {start : Int} (stream : shape.InStream seqId)
    (recent : tracked.history.next seqId - shape.stateSize ≤ start)
    (reached : start + shape.ratio ≤ (tracked.history.extend feed).next seqId) :
    (shape.sourceReads feed.batch seqId start).map
        (shape.sourceRow feed.batch.length tracked.mem.state feed.rows pad) =
      shape.window pad (tracked.history.extend feed).row seqId start := by
  rw [CompShape.sourceReads, List.map_map]
  apply List.map_congr_left
  intro j inRange
  have inside : j < shape.ratio := List.mem_range.mp inRange
  exact source_of_pos sized sound continues stream (by omega) (by omega)

theorem visit_facts (continues : tracked.Accepts shape feed) (member : visit ∈ visits feed.batch) :
    shape.InStream visit.seqId ∧ 0 ≤ visit.pos ∧
      tracked.history.next visit.seqId ≤ visit.pos ∧
      visit.pos < (tracked.history.extend feed).next visit.seqId ∧
      visit.pos < shape.kvSize * shape.ratio ∧
      (tracked.history.extend feed).row visit.seqId visit.pos =
        feed.rows visit.idx := by
  obtain ⟨token, inBatch, nonneg, at_, inSeqs⟩ := mem_visits.mp member
  obtain ⟨stream, low, high, bound⟩ := continues.token inBatch inSeqs
  have kept := continues.record_token tracked.history.row feed.rows inBatch inSeqs
  rw [← at_]
  exact ⟨stream, nonneg, low, high, bound, kept⟩

theorem visit_of_pos (sound : tracked.Sound shape pool pad)
    (continues : tracked.Accepts shape feed) (low : tracked.history.next seqId ≤ pos)
    (high : pos < (tracked.history.extend feed).next seqId) :
    ∃ visit ∈ visits feed.batch, visit.seqId = seqId ∧ visit.pos = pos := by
  obtain ⟨entry, inBatch, inSeqs, at_⟩ := continues.covered 0 low high
  have nonneg : 0 ≤ entry.1.pos := at_ ▸ le_trans (sound.started seqId) low
  exact ⟨⟨entry.2, pos, seqId⟩, mem_visits.mpr ⟨entry.1, inBatch, nonneg, at_, inSeqs⟩, rfl, rfl⟩

/-- The rows a completed block pools are the rows of its own positions and, with overlap, of
the positions of the block before. -/
theorem block_reads (sized : shape.Sized) (sound : tracked.Sound shape pool pad)
    (continues : tracked.Accepts shape feed) (member : visit ∈ shape.completed feed.batch) :
    (shape.sourceReads feed.batch visit.seqId (shape.sourceStart visit)).map
        (shape.sourceRow feed.batch.length tracked.mem.state feed.rows pad) =
      shape.window pad (tracked.history.extend feed).row visit.seqId
        (shape.sourceStart visit) ∧
    (shape.overlap = true →
      (shape.sourceReads feed.batch visit.seqId (shape.sourceStart visit - shape.ratio)).map
          (shape.sourceRow feed.batch.length tracked.mem.state feed.rows pad) =
        shape.window pad (tracked.history.extend feed).row visit.seqId
          (shape.sourceStart visit - shape.ratio)) := by
  obtain ⟨stream, -, low, high, -, -⟩ := visit_facts continues (List.mem_filter.mp member).1
  have whole := sized.ratio_le
  unfold CompShape.sourceStart
  refine ⟨source_of_window sized sound continues stream (by omega) (by omega), fun overlap => ?_⟩
  have twice : shape.stateSize = 2 * shape.ratio := by
    rw [sized.stateSize, if_pos overlap]
  exact source_of_window sized sound continues stream (by omega) (by omega)

theorem CompShape.blockReads_of_completed {batch : Batch} (member : visit ∈ shape.completed batch) :
    shape.blockReads batch = shape.completedReads batch := by
  unfold CompShape.blockReads
  split
  · rfl
  · rw [if_neg]
    intro ⟨_, none_, _⟩
    rw [List.isEmpty_iff] at none_
    rw [none_] at member
    exact List.not_mem_nil member

/-- Block `b` of the graph is the `b`-th completed block: it reads the rows of that block and
goes to the row of its number. -/
theorem block_pooled (sized : shape.Sized) (sound : tracked.Sound shape pool pad)
    (continues : tracked.Accepts shape feed) {b : Nat}
    (found : (shape.completed feed.batch)[b]? = some visit) :
    (shape.buildCompPlan feed.batch).stateWriteIdxs[b]? =
      some (streamOffset shape.nStream visit.seqId shape.kvSize + visit.pos / shape.ratio) ∧
    (shape.buildCompPlan feed.batch).stateWritePos[b]? = some (shape.sourceStart visit) ∧
    (shape.prevIdxs (shape.buildCompPlan feed.batch) b).map
        (shape.sourceRow feed.batch.length tracked.mem.state feed.rows pad) =
      (if shape.overlap then
        shape.window pad (tracked.history.extend feed).row visit.seqId
          (shape.sourceStart visit - shape.ratio)
      else []) ∧
    (shape.curIdxs (shape.buildCompPlan feed.batch) b).map
        (shape.sourceRow feed.batch.length tracked.mem.state feed.rows pad) =
      shape.window pad (tracked.history.extend feed).row visit.seqId
        (shape.sourceStart visit) := by
  have member : visit ∈ shape.completed feed.batch := List.mem_of_getElem? found
  have reads := CompShape.blockReads_of_completed member
  obtain ⟨-, writeIdxs, writePos, -⟩ := continues.plan
  obtain ⟨cur, prev⟩ := continues.blockIdxs b
  obtain ⟨curRows, prevRows⟩ := block_reads sized sound continues member
  rw [reads] at writeIdxs writePos cur prev
  have curBlock := flatMap_block (f := fun visit : Visit =>
    shape.sourceReads feed.batch visit.seqId (shape.sourceStart visit))
    (fun visit => CompShape.sourceReads_length feed.batch visit.seqId _) found
  have inside : shape.ratio * b + shape.ratio ≤
      (shape.completedReads feed.batch).curReads.length := by
    have below : b < (shape.completed feed.batch).length :=
      (List.getElem?_eq_some_iff.mp found).1
    have total := length_flatMap_block (f := fun visit : Visit =>
      shape.sourceReads feed.batch visit.seqId (shape.sourceStart visit))
      (fun visit => CompShape.sourceReads_length feed.batch visit.seqId _)
      (shape.completed feed.batch)
    change _ ≤ (List.flatMap _ (shape.completed feed.batch)).length
    rw [total]
    exact Nat.mul_le_mul_left _ below
  refine ⟨?_, ?_, ?_, ?_⟩
  · rw [writeIdxs]
    simp [CompShape.completedReads, found]
  · rw [writePos]
    simp [CompShape.completedReads, found]
  · rw [prev inside]
    cases overlap : shape.overlap with
    | true =>
      have prevBlock := flatMap_block (f := fun visit : Visit =>
        shape.sourceReads feed.batch visit.seqId (shape.sourceStart visit - shape.ratio))
        (fun visit => CompShape.sourceReads_length feed.batch visit.seqId _) found
      simp only [CompShape.completedReads, overlap, if_true]
      rw [prevBlock]
      exact prevRows overlap
    | false => simp [CompShape.completedReads, overlap]
  · rw [cur]
    exact curBlock ▸ curRows

def CompShape.completedWrite (shape : CompShape) (pool : List Row → List Row → Int → Block)
    (pad : Row) (row : Int → Int → Row) (visit : Visit) : Int × Block :=
  (streamOffset shape.nStream visit.seqId shape.kvSize + visit.pos / shape.ratio,
    shape.historyBlock pool pad row visit.seqId (visit.pos / shape.ratio))

theorem cacheWrites_completed (sized : shape.Sized) (sound : tracked.Sound shape pool pad)
    (continues : tracked.Accepts shape feed) {b : Nat}
    (found : (shape.completed feed.batch)[b]? = some visit) :
    (shape.cacheWrites pool pad tracked.mem feed)[b]? =
      some (shape.completedWrite pool pad (tracked.history.extend feed).row
        visit) := by
  obtain ⟨writeIdx, writePos, prev, cur⟩ := block_pooled sized sound continues found
  have member : visit ∈ shape.completed feed.batch := List.mem_of_getElem? found
  have full : (visit.pos + 1) % (shape.ratio : Int) = 0 := by
    simpa using (List.mem_filter.mp member).2
  have start : shape.sourceStart visit = visit.pos / shape.ratio * shape.ratio :=
    start_of_completed (by exact_mod_cast sized.positive) full
  rw [start] at writePos prev cur
  have zipped : ((shape.buildCompPlan feed.batch).stateWriteIdxs.zip
      (shape.buildCompPlan feed.batch).stateWritePos)[b]? = some
        (streamOffset shape.nStream visit.seqId shape.kvSize + visit.pos / shape.ratio,
          visit.pos / shape.ratio * shape.ratio) :=
    List.getElem?_zip_eq_some.mpr ⟨writeIdx, writePos⟩
  rw [CompShape.cacheWrites, List.getElem?_map, List.getElem?_zipIdx, zipped]
  simp only [map_some, zero_add, prev, cur]
  rfl

theorem cacheWrites_length (continues : tracked.Accepts shape feed)
    (member : visit ∈ shape.completed feed.batch) :
    (shape.cacheWrites pool pad tracked.mem feed).length =
      (shape.completed feed.batch).length := by
  obtain ⟨-, writeIdxs, writePos, -⟩ := continues.plan
  rw [CompShape.blockReads_of_completed member] at writeIdxs writePos
  simp [CompShape.cacheWrites, writeIdxs, writePos, CompShape.completedReads]

theorem completedWrite_mem (sized : shape.Sized) (sound : tracked.Sound shape pool pad)
    (continues : tracked.Accepts shape feed) (member : visit ∈ shape.completed feed.batch) :
    shape.completedWrite pool pad (tracked.history.extend feed).row visit ∈
      shape.cacheWrites pool pad tracked.mem feed := by
  obtain ⟨b, found⟩ := List.mem_iff_getElem?.mp member
  exact List.mem_of_getElem? (cacheWrites_completed sized sound continues found)

theorem mem_cacheWrites (sized : shape.Sized) (sound : tracked.Sound shape pool pad)
    (continues : tracked.Accepts shape feed) (member : visit ∈ shape.completed feed.batch)
    {write : Int × Block} (inWrites : write ∈ shape.cacheWrites pool pad tracked.mem feed) :
    ∃ other ∈ shape.completed feed.batch,
      write = shape.completedWrite pool pad (tracked.history.extend feed).row other := by
  obtain ⟨b, at_⟩ := List.mem_iff_getElem?.mp inWrites
  have inside : b < (shape.completed feed.batch).length := by
    have total : (shape.cacheWrites pool pad tracked.mem feed).length = _ :=
      cacheWrites_length continues member
    exact total ▸ (List.getElem?_eq_some_iff.mp at_).1
  have found := List.getElem?_eq_getElem inside
  exact ⟨_, List.mem_of_getElem? found,
    some.inj (at_.symm.trans (cacheWrites_completed sized sound continues found))⟩

theorem placeholder_idx (continues : tracked.Accepts shape feed)
    (none_ : shape.completed feed.batch = []) {idx : Int}
    (member : idx ∈ (shape.buildCompPlan feed.batch).stateWriteIdxs) :
    ∃ first rest seqId, feed.batch = first :: rest ∧ seqId ∈ first.seqs ∧
      idx = streamOffset shape.nStream seqId shape.kvSize + (shape.kvSize - 1) := by
  rw [continues.plan.2.1] at member
  have nothing : (shape.completedReads feed.batch).writeIdxs = [] := by
    simp [CompShape.completedReads, none_]
  cases batch : feed.batch with
  | nil =>
    rw [batch, CompShape.blockReads, ← batch, nothing] at member
    exact absurd member List.not_mem_nil
  | cons first rest =>
    rw [batch, CompShape.blockReads] at member
    split at member
    · simp only [CompShape.placeholderReads, List.mem_singleton] at member
      rw [Tracked.Accepts, batch] at continues
      obtain ⟨owned, some_, -, -⟩ := continues
      have inSeqs : first.seqs.headD 0 ∈ first.seqs := by
        cases seqs : first.seqs with
        | nil => exact absurd seqs some_
        | cons seqId others => exact List.mem_cons_self
      refine ⟨first, rest, first.seqs.headD 0, rfl, inSeqs, ?_⟩
      obtain ⟨low, high, -⟩ := owned _ inSeqs
      have offset := streamOffset_eq low high shape.kvSize
      have nonneg : 0 ≤ first.seqs.headD 0 * (shape.kvSize : Int) :=
        Int.mul_nonneg low (Int.natCast_nonneg _)
      rw [offset] at member ⊢
      rw [member, max_eq_right nonneg, Int.add_sub_assoc]
    · rw [← batch, nothing] at member
      exact absurd member List.not_mem_nil

/-- That row holds no full block: the position that fills it is past the first token of its
stream, and the batch would go through it. -/
theorem placeholder_apart (sound : tracked.Sound shape pool pad)
    (continues : tracked.Accepts shape feed) (none_ : shape.completed feed.batch = []) {idx : Int}
    (member : idx ∈ (shape.buildCompPlan feed.batch).stateWriteIdxs)
    (stream : shape.InStream seqId) (nonneg : 0 ≤ j)
    (full : j * shape.ratio + shape.ratio ≤ (tracked.history.extend feed).next seqId)
    (inCache : j < shape.kvSize) : idx ≠ streamOffset shape.nStream seqId shape.kvSize + j := by
  intro place
  obtain ⟨first, rest, owner, batch, inSeqs, rfl⟩ := placeholder_idx continues none_ member
  have entry : (first, 0) ∈ feed.batch.zipIdx := by simp [batch]
  obtain ⟨ownerStream, low, -, below⟩ := continues.token entry inSeqs
  rw [streamOffset_eq ownerStream.1 ownerStream.2, streamOffset_eq stream.1 stream.2] at place
  obtain ⟨rfl, lastRow⟩ := ring_injective (lt_of_le_of_lt nonneg inCache)
    ⟨by omega, by omega⟩ ⟨nonneg, inCache⟩ place
  have whole : j * shape.ratio + shape.ratio = shape.kvSize * shape.ratio := by
    rw [← lastRow, Int.sub_mul, Int.one_mul, Int.sub_add_cancel]
  have lowLast : tracked.history.next owner ≤ j * shape.ratio + shape.ratio - 1 := by omega
  have highLast : j * shape.ratio + shape.ratio - 1 <
      (tracked.history.extend feed).next owner := by omega
  obtain ⟨visit, inVisits, -, atLast⟩ := visit_of_pos sound continues lowLast highLast
  have completed : visit ∈ shape.completed feed.batch := by
    rw [CompShape.completed, List.mem_filter, atLast]
    exact ⟨inVisits, by simp⟩
  rw [none_] at completed
  exact absurd completed List.not_mem_nil

theorem window_old (continues : tracked.Accepts shape feed) {start : Int}
    (old : start + shape.ratio ≤ tracked.history.next seqId) :
    shape.window pad (tracked.history.extend feed).row seqId start =
      shape.window pad tracked.history.row seqId start := by
  apply List.map_congr_left
  intro j inRange
  have inside : j < shape.ratio := List.mem_range.mp inRange
  have before : start + (j : Int) < tracked.history.next seqId := by omega
  have kept := continues.record_old tracked.history.row feed.rows before
  split
  · rfl
  · exact kept

theorem historyBlock_old (continues : tracked.Accepts shape feed)
    (old : j * shape.ratio + shape.ratio ≤ tracked.history.next seqId) :
    shape.historyBlock pool pad (tracked.history.extend feed).row seqId j =
      shape.historyBlock pool pad tracked.history.row seqId j := by
  unfold CompShape.historyBlock
  rw [window_old continues old, window_old continues (by omega)]

theorem ring_step (sized : shape.Sized) (sound : tracked.Sound shape pool pad)
    (continues : tracked.Accepts shape feed) (stream : shape.InStream seqId) (nonneg : 0 ≤ pos)
    (recent : (tracked.history.extend feed).next seqId - shape.stateSize ≤ pos)
    (below : pos < (tracked.history.extend feed).next seqId) :
    scatter tracked.mem.state (shape.stateWrites feed) (shape.stateIdx seqId pos) =
      (tracked.history.extend feed).row seqId pos := by
  have ringPos := sized.ring_pos
  have persisted := persistRows_persisted shape feed.batch
  have writes := @CompShape.stateWrites_eq _ _ feed continues.one_stream
  -- a write at the place of `pos` comes from a visit of the same sequence, a whole number
  -- of turns away, and is the last such visit
  have atPlace : ∀ write ∈ shape.stateWrites feed,
      write.1 = shape.stateIdx seqId pos → ∃ visit ∈ visits feed.batch,
        visit.seqId = seqId ∧ visit.pos % (shape.stateSize : Int) = pos % shape.stateSize ∧
        write.2 = feed.rows visit.idx ∧ ∀ other ∈ visits feed.batch, other.seqId = seqId →
          other.pos = pos → pos ≤ visit.pos := by
    intro write member same
    rw [writes] at member
    obtain ⟨row, inRows, rfl⟩ := List.mem_map.mp member
    rw [List.mem_insertionSort] at inRows
    obtain ⟨⟨visit, inVisits, place, source, position⟩, last⟩ := persisted.latest row inRows
    obtain ⟨visitStream, -⟩ := visit_facts continues inVisits
    obtain ⟨sameSeq, slot⟩ := CompShape.stateIdx_inj visitStream stream ringPos
      (place.trans same)
    refine ⟨visit, inVisits, sameSeq, slot, by rw [source], fun other inOther otherSeq at_ => ?_⟩
    rw [position, ← at_]
    refine last other inOther ?_
    rw [otherSeq, at_]
    exact same.symm
  by_cases old : pos < tracked.history.next seqId
  · -- no visit comes back to the slot before one turn of the ring
    have untouched : ∀ write ∈ shape.stateWrites feed,
        write.1 ≠ shape.stateIdx seqId pos := by
      intro write member same
      obtain ⟨visit, inVisits, sameSeq, slot, -, -⟩ := atPlace write member same
      obtain ⟨-, -, low, high, -, -⟩ := visit_facts continues inVisits
      rw [sameSeq] at low high
      have := slot_injective (by omega) (by omega) slot
      omega
    have before := CompShape.Continues.next_le continues seqId
    change _ ≤ (tracked.history.extend feed).next seqId at before
    rw [scatter_untouched untouched, sound.ring seqId stream pos nonneg (by omega) old]
    exact (continues.record_old tracked.history.row feed.rows old).symm
  · obtain ⟨visit, inVisits, rfl, rfl⟩ :=
      visit_of_pos sound continues (not_lt.mp old) below
    obtain ⟨row, inRows, place⟩ := persisted.kept visit inVisits
    refine scatter_agreed ⟨(row.dst, feed.rows row.src), ?_, place⟩ ?_
    · rw [writes]
      exact List.mem_map.mpr ⟨row, (List.mem_insertionSort _).mpr inRows, rfl⟩
    · intro write member same
      obtain ⟨latest, inLatest, sameSeq, slot, value, last⟩ := atPlace write member same
      obtain ⟨-, -, -, high, -, recorded⟩ := visit_facts continues inLatest
      rw [sameSeq] at high
      have notBefore := last visit inVisits rfl rfl
      have samePos := slot_injective (by omega) (by omega) slot
      rw [value, ← recorded, sameSeq, samePos]

theorem within_step (sound : tracked.Sound shape pool pad)
    (continues : tracked.Accepts shape feed) (stream : shape.InStream seqId) :
    (tracked.history.extend feed).next seqId ≤ shape.kvSize * shape.ratio := by
  by_contra outside
  obtain ⟨visit, inVisits, -, at_⟩ := visit_of_pos sound continues
    (sound.within seqId stream) (not_le.mp outside)
  have := (visit_facts continues inVisits).2.2.2.2.1
  omega

theorem blocks_step (sized : shape.Sized) (sound : tracked.Sound shape pool pad)
    (continues : tracked.Accepts shape feed) (stream : shape.InStream seqId) (nonneg : 0 ≤ j)
    (full : j < (tracked.history.extend feed).next seqId / shape.ratio) :
    scatter tracked.mem.cache (shape.cacheWrites pool pad tracked.mem feed)
        (streamOffset shape.nStream seqId shape.kvSize + j) =
      shape.historyBlock pool pad (tracked.history.extend feed).row seqId j := by
  have positive : (0 : Int) < shape.ratio := by exact_mod_cast sized.positive
  rw [lt_ediv_iff positive] at full
  have fits : (tracked.history.extend feed).next seqId ≤ shape.kvSize * shape.ratio :=
    within_step sound continues stream
  have inCache : j < shape.kvSize := by
    by_contra high
    have := Int.mul_le_mul_of_nonneg_right (not_lt.mp high) positive.le
    omega
  -- a completed block in this place is block `j` of this sequence
  have same : ∀ visit ∈ shape.completed feed.batch,
      streamOffset shape.nStream visit.seqId shape.kvSize + visit.pos / shape.ratio =
        streamOffset shape.nStream seqId shape.kvSize + j →
      visit.seqId = seqId ∧ visit.pos / shape.ratio = j := by
    intro visit member place
    obtain ⟨visitStream, started, -, -, below, -⟩ :=
      visit_facts continues (List.mem_filter.mp member).1
    rw [streamOffset_eq visitStream.1 visitStream.2, streamOffset_eq stream.1 stream.2] at place
    refine ring_injective (lt_of_le_of_lt nonneg inCache)
      ⟨Int.ediv_nonneg started positive.le, ?_⟩ ⟨nonneg, inCache⟩ place
    exact (Int.ediv_lt_iff_lt_mul positive).mpr below
  have last := completed_of_last positive j
  by_cases old : j * shape.ratio + shape.ratio ≤ tracked.history.next seqId
  · rw [historyBlock_old continues old, scatter_untouched]
    · exact sound.blocks seqId stream j nonneg ((lt_ediv_iff positive j _).mpr old)
    · intro write member place
      cases completed : shape.completed feed.batch with
      | nil =>
        have atIdx : write.1 ∈ (shape.buildCompPlan feed.batch).stateWriteIdxs := by
          obtain ⟨entry, inZip, rfl⟩ := List.mem_map.mp member
          exact (List.of_mem_zip
            (List.fst_mem_of_mem_zipIdx inZip)).1
        exact placeholder_apart sound continues completed atIdx stream nonneg full inCache
          place
      | cons first rest =>
        have inCompleted : first ∈ shape.completed feed.batch := by simp [completed]
        obtain ⟨visit, visitMember, rfl⟩ :=
          mem_cacheWrites sized sound continues inCompleted member
        obtain ⟨sameSeq, number⟩ := same _ visitMember place
        have completedPos := (List.mem_filter.mp visitMember).2
        obtain ⟨-, -, low, -, -, -⟩ := visit_facts continues (List.mem_filter.mp visitMember).1
        have start := start_of_completed positive (by simpa using completedPos)
        rw [number] at start
        rw [sameSeq] at low
        omega
  · have lowLast : tracked.history.next seqId ≤ j * shape.ratio + shape.ratio - 1 := by omega
    have highLast : j * shape.ratio + shape.ratio - 1 <
        (tracked.history.extend feed).next seqId := by omega
    obtain ⟨visit, inVisits, rfl, atLast⟩ := visit_of_pos sound continues lowLast highLast
    have member : visit ∈ shape.completed feed.batch := by
      rw [CompShape.completed, List.mem_filter]
      exact ⟨inVisits, by simp [atLast]⟩
    refine scatter_agreed ⟨_, completedWrite_mem sized sound continues member, ?_⟩
      fun write inWrites place => ?_
    · rw [CompShape.completedWrite, atLast, last.2]
    · obtain ⟨other, inCompleted, rfl⟩ := mem_cacheWrites sized sound continues member inWrites
      obtain ⟨sameSeq, number⟩ := same other inCompleted place
      rw [CompShape.completedWrite, sameSeq, number]

theorem Tracked.Sound.step (sized : shape.Sized) (sound : tracked.Sound shape pool pad)
    (continues : tracked.Accepts shape feed) {next : Tracked Row Block}
    (stepped : tracked.step shape pool pad feed = some next) : next.Sound shape pool pad := by
  obtain rfl : _ = next := some.inj stepped
  exact
    { started := fun seqId =>
        le_trans (sound.started seqId) (CompShape.Continues.next_le continues seqId)
      within := fun seqId stream => within_step sound continues stream
      ring := fun seqId stream pos nonneg recent below =>
        ring_step sized sound continues stream nonneg recent below
      blocks := fun seqId stream j nonneg full =>
        blocks_step sized sound continues stream nonneg full }

theorem Tracked.Sound.fresh {start : Tracked Row Block}
    (fresh : ∀ seqId, start.history.next seqId = 0) : start.Sound shape pool pad where
  started seqId := le_of_eq (fresh seqId).symm
  within seqId _ := by
    rw [fresh seqId]
    exact Int.mul_nonneg (Int.natCast_nonneg _) (Int.natCast_nonneg _)
  ring seqId _ pos nonneg _ below := by
    rw [fresh seqId] at below
    exact absurd below (not_lt.mpr nonneg)
  blocks seqId _ j nonneg full := by
    rw [fresh seqId, Int.zero_ediv] at full
    exact absurd full (not_lt.mpr nonneg)

theorem Tracked.Sound.of_reaches (sized : shape.Sized) {start final : Tracked Row Block}
    (fresh : ∀ seqId, start.history.next seqId = 0)
    (run : Reaches (Tracked.step shape pool pad) (Tracked.Accepts shape) start final) :
    final.Sound shape pool pad :=
  run.invariant (Tracked.Sound shape pool pad) (Tracked.Sound.fresh fresh)
    fun _ _ _ sound continues stepped => sound.step sized continues stepped

end Batch

/-- After any run of batches that continue their sequences: the indices of every completed
block of the next batch name the rows of its positions, every row a token of the batch sees
holds its block, and the write without a completed block is to no row that is seen. -/
theorem visible_rows_hold_blocks {shape : CompShape} (sized : shape.Sized)
    (pool : List Row → List Row → Int → Block) (pad : Row) {start final : Tracked Row Block}
    (fresh : ∀ seqId, start.history.next seqId = 0)
    (run : Reaches (Tracked.step shape pool pad) (Tracked.Accepts shape) start final)
    (feed : Feed Row) (continues : final.Accepts shape feed) :
    (∀ b visit, (shape.completed feed.batch)[b]? = some visit →
      (shape.buildCompPlan feed.batch).stateWriteIdxs[b]? =
        some (streamOffset shape.nStream visit.seqId shape.kvSize + visit.pos / shape.ratio) ∧
      (shape.buildCompPlan feed.batch).stateWritePos[b]? = some (shape.sourceStart visit) ∧
      (shape.prevIdxs (shape.buildCompPlan feed.batch) b).map
          (shape.sourceRow feed.batch.length final.mem.state feed.rows pad) =
        (if shape.overlap then
          shape.window pad (final.history.extend feed).row visit.seqId
            (shape.sourceStart visit - shape.ratio)
        else []) ∧
      (shape.curIdxs (shape.buildCompPlan feed.batch) b).map
          (shape.sourceRow feed.batch.length final.mem.state feed.rows pad) =
        shape.window pad (final.history.extend feed).row visit.seqId
          (shape.sourceStart visit)) ∧
    (∀ (i : Nat) (token : Token), feed.batch[i]? = some token → ∀ seqId ∈ token.seqs,
      ∃ nVisible, (shape.buildCompPlan feed.batch).nVisible[i]? = some nVisible ∧
        ∀ j, 0 ≤ j → j < nVisible →
          (shape.decode pool pad final.mem feed).cache
              (streamOffset shape.nStream seqId shape.kvSize + j) =
            shape.historyBlock pool pad (final.history.extend feed).row seqId j ∧
          (shape.completed feed.batch = [] →
            ∀ idx ∈ (shape.buildCompPlan feed.batch).stateWriteIdxs,
              idx ≠ streamOffset shape.nStream seqId shape.kvSize + j)) := by
  have sound := Tracked.Sound.of_reaches sized fresh run
  refine ⟨fun b visit found => block_pooled sized sound continues found,
    fun i token at_ seqId inSeqs => ⟨shape.nVisibleOf token, ?_, fun j nonneg visible => ?_⟩⟩
  · rw [continues.plan.2.2.2, List.getElem?_map, at_]
    rfl
  · have positive : (0 : Int) < shape.ratio := by exact_mod_cast sized.positive
    have entry : (token, i) ∈ feed.batch.zipIdx := by
      rw [List.mem_zipIdx_iff_getElem?, at_]
    obtain ⟨stream, -, high, -⟩ := continues.token entry inSeqs
    change token.pos < (final.history.extend feed).next seqId at high
    have full : j * shape.ratio + shape.ratio ≤ token.pos + 1 := by
      rw [CompShape.nVisibleOf] at visible
      split at visible
      · exact absurd visible (not_lt.mpr nonneg)
      · exact (lt_ediv_iff positive j _).mp visible
    have reached : j * shape.ratio + shape.ratio ≤ (final.history.extend feed).next seqId := by
      omega
    refine ⟨blocks_step sized sound continues stream nonneg
      ((lt_ediv_iff positive j _).mpr reached), fun none_ idx member => ?_⟩
    refine placeholder_apart sound continues none_ member stream nonneg reached ?_
    by_contra outside
    have rows := Int.mul_le_mul_of_nonneg_right (not_lt.mp outside) positive.le
    have bound := within_step sound continues stream
    omega

section Example

def twoStreams : CompShape := ⟨4, true, 8, 2, 2⟩

def threeTokens : Feed Int := ⟨[⟨0, some [1]⟩, ⟨1, some [1]⟩, ⟨2, some [1]⟩], fun i => 10 + i⟩

def twoTokens : Feed Int := ⟨[⟨3, some [1]⟩, ⟨4, some [1]⟩], fun i => 20 + i⟩

def emptyMemory : Tracked Int (List Int × List Int) := ⟨⟨fun _ => 0, fun _ => ([], [])⟩,
  ⟨fun _ => 0, fun _ _ => 0⟩⟩

def afterThree : Tracked Int (List Int × List Int) :=
  ⟨twoStreams.decode (fun prev cur _ => (prev, cur)) (-1) emptyMemory.mem threeTokens,
    emptyMemory.history.extend threeTokens⟩

theorem visible_rows_hold_blocks_at_two_batches :
    (twoStreams.decode (fun prev cur _ => (prev, cur)) (-1) afterThree.mem twoTokens).cache 2 =
      ([-1, -1, -1, -1], [10, 11, 12, 20]) := by
  have run : Reaches (Tracked.step twoStreams (fun prev cur _ => (prev, cur)) (-1))
      (Tracked.Accepts twoStreams) emptyMemory afterThree :=
    .tail .refl (show twoStreams.Continues _ threeTokens.batch by decide) rfl
  have sized : twoStreams.Sized := ⟨by decide, rfl⟩
  have holds := visible_rows_hold_blocks sized
    (fun prev cur _ => (prev, cur)) (-1) (fun _ => rfl) run twoTokens
    (show twoStreams.Continues afterThree.history.next twoTokens.batch by decide)
  obtain ⟨nVisible, counted, seen⟩ := holds.2 0 ⟨3, some [1]⟩ rfl 1 (by decide)
  have one : nVisible = 1 := some.inj (counted.symm.trans (by decide))
  exact (seen 0 (by decide) (by rw [one]; decide)).1.trans (by decide)

end Example

end LlamaCpp.Dsv4
