import LlamaCpp.Kv.StateFormat
import LlamaCpp.Kv.EmptyRun
import LlamaCpp.Kv.ContextRuns

/-!
# Restoring a saved state

A state that was written is read back cell by cell.  The M-RoPE planes come back only for a
QSA cache, the sequence ids of a whole cache must be below `n_seq_max`, and the state of a
sequence without cells fails the assertions on the restored block.
-/

set_option autoImplicit false

namespace LlamaCpp.Kv

open List

/-- A cell with the position, the sequences and the M-RoPE planes of the written one, and with
its token and logical position where the model uses them. -/
structure CellRestored (env : ContextEnv) (qsa : Bool) (destSeqId : Int) (written cell : KvCell) :
    Prop where
  pos : cell.pos = written.pos
  seqId : cell.seqId = if destSeqId = -1 then written.seqId else {destSeqId}
  planes : cell.posH = written.posH ∧ cell.posW = written.posW ∧ cell.posE = written.posE
  token : env.readTokens = true → cell.token = written.token
  qsaPos : qsa = true → cell.qsaPos = written.qsaPos

def clearedFor (c : KvCache) (destSeqId : Int) : KvCache :=
  if destSeqId = -1 then kvCacheClear c
  else ((kvCacheSeqRm c destSeqId (-1) (-1)).map Prod.snd).getD c

/-- The cells written of `source` are read into a block of `target`, in order. -/
def Restores (env : ContextEnv) (openPangu : Bool) (source target : KvCache) (seqId destSeqId : Int) :
    Prop :=
  ∃ after, readKvCacheMeta env openPangu target (cellCount source seqId) destSeqId
      (writeKvCacheMeta env source (cellRanges source seqId) seqId) = some (true, after) ∧
    (∀ i, (inside : i < (writtenCells source seqId).length) →
      CellRestored env target.qsa destSeqId (writtenCells source seqId)[i]
        (after.cell (after.head + i))) ∧
    after.used = (clearedFor target destSeqId).used + cellCount source seqId

def defaultPlanes (destSeqId : Int) (cell : KvCell) : Prop :=
  if destSeqId = -1 then cell.posH = 0 ∧ cell.posW = 0 ∧ cell.posE = 0
  else cell.posH = cell.pos ∧ cell.posW = cell.pos ∧ cell.posE = 0

/-- The index at which the search for `nTokens` free cells ends. -/
def slotFound (c : KvCache) (nTokens : Nat) : Nat :=
  if fits : nTokens ≤ c.cells.length then (findSlotLoop c.cells nTokens fits c.head 0).2 else c.head

structure Restorable (env : ContextEnv) (openPangu : Bool) (source target : KvCache)
    (seqId destSeqId : Int) : Prop where
  planes : target.qsa = true ∨ ∀ cell ∈ writtenCells source seqId, defaultPlanes destSeqId cell
  ids : destSeqId = -1 → ∀ cell ∈ writtenCells source seqId, ∀ id ∈ cell.seqId,
    0 ≤ id ∧ id < env.nSeqMax
  someCell : destSeqId ≠ -1 → writtenCells source seqId ≠ []
  firstCell : destSeqId ≠ -1 → openPangu = true →
    slotFound (clearedFor target destSeqId) (cellCount source seqId) = 0

theorem cellCount_le (c : KvCache) (seqId : Int) : cellCount c seqId ≤ c.size :=
  countP_le_length

theorem kvCacheClear_cell_release (c : KvCache) {i : Nat} (inside : i < c.size) :
    (kvCacheClear c).cell i = { (c.cell i).release with src := i } := by
  have within : i < (kvCacheClear c).cells.length := by simpa [kvCacheClear, KvCache.size] using inside
  rw [KvCache.cell, getD_eq_getElem _ _ within, KvCache.cell, getD_eq_getElem _ _ inside]
  exact getElem_mapIdx

theorem seqIdsInRange_savedCell (env : ContextEnv) (qsa : Bool) (cell : KvCell) (nSeqMax : Nat) :
    (savedCell env qsa (-1) cell).seqIdsInRange nSeqMax = true ↔
      ∀ id ∈ cell.seqId, 0 ≤ id ∧ id < nSeqMax := by
  have ids : (savedCell env qsa (-1) cell).seqIds = cell.seqId.sort (· ≤ ·) := by cases qsa <;> rfl
  rw [SavedCell.seqIdsInRange, ids]
  simp

theorem restoreCell_restored_iff (env : ContextEnv) (qsa : Bool) (written old : KvCell) (i : Int) :
    CellRestored env qsa (-1) written
        ((savedCell env qsa (-1) written).restoreCell env qsa { old.release with src := i }) ↔
      qsa = true ∨ defaultPlanes (-1) written := by
  have ids : ((∅ : Finset Int) ∪ (written.seqId.sort (· ≤ ·)).toFinset) = written.seqId := by
    rw [Finset.empty_union, Finset.sort_toFinset]
  cases qsa with
  | true =>
    refine ⟨fun _ => Or.inl rfl, fun _ => ⟨rfl, ids, ⟨rfl, rfl, rfl⟩, fun reads => ?_, fun _ => rfl⟩⟩
    simp [SavedCell.restoreCell, SavedCell.restoreQsa, SavedCell.tokenOf, savedCell, reads]
  | false =>
    constructor
    · intro restored
      exact Or.inr ⟨restored.planes.1.symm, restored.planes.2.1.symm, restored.planes.2.2.symm⟩
    · intro defaults
      obtain ⟨posH, posW, posE⟩ := defaults.resolve_left Bool.false_ne_true
      refine ⟨rfl, ids, ⟨posH.symm, posW.symm, posE.symm⟩, fun reads => ?_, fun impossible => by
        cases impossible⟩
      simp [SavedCell.restoreCell, SavedCell.restoreQsa, SavedCell.tokenOf, savedCell, reads]

def wholeRestored (env : ContextEnv) (c : KvCache) (saved : List SavedCell) : KvCache :=
  { kvCacheClear c with
    cells := overwriteCells (SavedCell.restoreCell env c.qsa) (kvCacheClear c).cells saved
    head := 0
    used := saved.length }

theorem wholeRestored_cell (env : ContextEnv) (c : KvCache) (saved : List SavedCell) {i : Nat}
    (fits : saved.length ≤ c.size) (inside : i < saved.length) :
    (wholeRestored env c saved).cell i =
      saved[i].restoreCell env c.qsa { (c.cell i).release with src := i } := by
  have room : saved.length ≤ (kvCacheClear c).cells.length := by simpa [kvCacheClear, KvCache.size] using fits
  have placed := overwriteCells_getD (SavedCell.restoreCell env c.qsa) (kvCacheClear c).cells saved
    room i
  rw [List.getElem?_eq_getElem inside] at placed
  have old := kvCacheClear_cell_release c (lt_of_lt_of_le inside fits)
  rw [← old]
  exact placed

variable {destSeqId : Int} {c cleared : KvCache} {start : Nat} {saved : List SavedCell}

theorem forall_cells_iff {written : List KvCell} {qsa : Bool}
    {Restored : (i : Nat) → i < written.length → Prop}
    (each : ∀ i inside, Restored i inside ↔ qsa = true ∨ defaultPlanes destSeqId written[i]) :
    (∀ i inside, Restored i inside) ↔
      qsa = true ∨ ∀ cell ∈ written, defaultPlanes destSeqId cell := by
  cases qsa with
  | true => exact ⟨fun _ => Or.inl rfl, fun _ i inside => (each i inside).mpr (Or.inl rfl)⟩
  | false =>
    have indexed : (∀ i inside, Restored i inside) ↔
        ∀ i, (inside : i < written.length) → defaultPlanes destSeqId written[i] := by
      refine forall₂_congr fun i inside => ?_
      rw [each i inside]
      exact or_iff_right Bool.false_ne_true
    rw [indexed, ← forall_mem_iff_forall_getElem]
    exact (or_iff_right Bool.false_ne_true).symm

theorem restores_whole_iff (env : ContextEnv) (openPangu : Bool) (source target : KvCache)
    (sameQsa : source.qsa = target.qsa) (sameSize : source.size = target.size) :
    Restores env openPangu source target (-1) (-1) ↔ Restorable env openPangu source target (-1) (-1) := by
  let saved := (writtenCells source (-1)).map (savedCell env target.qsa (-1))
  have savedLength : saved.length = cellCount source (-1) := by
    rw [length_map, length_writtenCells]
  have fits : cellCount source (-1) ≤ target.size := sameSize ▸ cellCount_le source (-1)
  have read : readKvCacheMeta env openPangu target (cellCount source (-1)) (-1)
      (writeKvCacheMeta env source (cellRanges source (-1)) (-1)) =
        some (readAllMeta env target saved) := by
    have cells := readAllCells_write env target.qsa (-1) (writtenCells source (-1)) []
    rw [append_nil, length_writtenCells] at cells
    rw [readKvCacheMeta, ← sameQsa, readMarker_writeKvCacheMeta, sameQsa]
    simp only [if_neg (not_lt.mpr fits), cells]
    rfl
  have ids_iff : saved.all (SavedCell.seqIdsInRange env.nSeqMax) = true ↔
      ∀ cell ∈ writtenCells source (-1), ∀ id ∈ cell.seqId, 0 ≤ id ∧ id < env.nSeqMax := by
    rw [all_map, all_eq_true]
    exact forall₂_congr fun cell _ => seqIdsInRange_savedCell env target.qsa cell env.nSeqMax
  have restored : ∀ after, readAllMeta env target saved = (true, after) ↔
      saved.all (SavedCell.seqIdsInRange env.nSeqMax) = true ∧
        after = wholeRestored env target saved := by
    intro after
    rw [readAllMeta, if_neg (not_lt.mpr (savedLength ▸ fits))]
    split
    · rename_i inRange
      exact ⟨fun same => ⟨inRange, (Prod.mk.inj same).2.symm⟩, fun same => same.2 ▸ rfl⟩
    · rename_i outside
      exact ⟨fun same => absurd (Prod.mk.inj same).1 Bool.false_ne_true, fun same =>
        absurd same.1 outside⟩
  have cells_iff : (∀ i, (inside : i < (writtenCells source (-1)).length) →
      CellRestored env target.qsa (-1) (writtenCells source (-1))[i]
        ((wholeRestored env target saved).cell ((wholeRestored env target saved).head + i))) ↔
      target.qsa = true ∨ ∀ cell ∈ writtenCells source (-1), defaultPlanes (-1) cell := by
    refine forall_cells_iff fun i inside => ?_
    have insideSaved : i < saved.length := by rwa [length_map]
    have placed := wholeRestored_cell env target saved (savedLength ▸ fits) insideSaved
    have start : (wholeRestored env target saved).head + i = i := zero_add i
    rw [start, placed, getElem_map]
    exact restoreCell_restored_iff env target.qsa _ _ _
  have used : (wholeRestored env target saved).used =
      (clearedFor target (-1)).used + cellCount source (-1) := by
    change (saved.length : Int) = 0 + _
    rw [savedLength, Int.zero_add]
  constructor
  · intro result
    obtain ⟨after, ran, cells, _⟩ := result
    obtain ⟨inRange, rfl⟩ := (restored after).mp (Option.some.inj (read.symm.trans ran))
    exact ⟨cells_iff.mp cells, fun _ => ids_iff.mp inRange, fun single => absurd rfl single,
      fun single => absurd rfl single⟩
  · intro restorable
    have ran := (restored _).mpr ⟨ids_iff.mpr (restorable.ids rfl), rfl⟩
    exact ⟨_, read.trans (congrArg some ran), cells_iff.mpr restorable.planes, used⟩

def KvCache.WindowSound (c : KvCache) : Prop :=
  c.compacted = true → c.liveSwa = 0 → c.posBaseSwa = 0

def KvCache.FreeRun (c : KvCache) (start nTokens : Nat) : Prop :=
  start + nTokens ≤ c.size ∧ ∀ j, j < nTokens → (c.cell (start + j)).pos < 0

structure RemovedFrom (c cleared : KvCache) : Prop where
  exact_ : cleared.Exact
  recurrent : cleared.recurrent = false
  qsa : cleared.qsa = c.qsa
  size : cleared.size = c.size
  free : ∀ i, i < c.size → (c.cell i).pos < 0 → (cleared.cell i).pos < 0

theorem RemovedFrom.freeRun (removed : RemovedFrom c cleared) {nTokens : Nat}
    (run : c.FreeRun start nTokens) : cleared.FreeRun start nTokens := by
  obtain ⟨inside, free⟩ := run
  refine ⟨removed.size.symm ▸ inside, fun j near => ?_⟩
  exact removed.free _ (by omega) (free j near)

def sequenceSwept (c : KvCache) (destSeqId : Int) : KvCache :=
  let s := c.sweep (seqRmVisit c.hasQnextStateStorage destSeqId (rangeLow (-1)) (rangeHigh (-1)))
  { c with cells := s.cells, used := s.used, head := lowerHead c.head s.newHead }

theorem seqRmVisit_of_free (q : Bool) (seqId p1 : Int) (i : Nat) {cell : KvCell}
    (free : cell.pos < 0) : (seqRmVisit q seqId (rangeLow (-1)) p1 i cell).cell = cell := by
  have outside : decide (rangeLow (-1) ≤ cell.pos ∧ cell.pos < p1) = false :=
    decide_eq_false fun inside => absurd inside.1 (not_le.mpr free)
  simp [seqRmVisit, outside]

theorem sequenceSwept_removed (transformer : c.recurrent = false) (exact_ : c.Exact)
    (destSeqId : Int) : RemovedFrom c (sequenceSwept c destSeqId) where
  exact_ := exact_.withSweep _ c.hasShift _ (lowerHead_le _ _ _ exact_.head)
    fun i cell => seqRmVisit_exact _ destSeqId _ _ i cell
  recurrent := transformer
  qsa := rfl
  size := by
    rw [KvCache.size, KvCache.size]
    simp [sequenceSwept, KvCache.sweep_cells]
  free := fun i inside free => by
    have swept := getD_sweep c (seqRmVisit c.hasQnextStateStorage destSeqId (rangeLow (-1))
      (rangeHigh (-1))) i inside
    rw [seqRmVisit_of_free _ _ _ _ free] at swept
    change ((c.sweep _).cells.getD i {}).pos < 0
    rw [swept]
    exact free

theorem RemovedFrom.of_same (removed : RemovedFrom c cleared) (headSwa : Nat) (posBaseSwa : Int) :
    RemovedFrom c { cleared with headSwa := headSwa, posBaseSwa := posBaseSwa } :=
  ⟨⟨removed.exact_.cells, removed.exact_.used, removed.exact_.head⟩, removed.recurrent, removed.qsa,
    removed.size, removed.free⟩

theorem seqRm_removed (transformer : c.recurrent = false) (exact_ : c.Exact)
    (window : c.WindowSound) (destSeqId : Int) :
    ∃ kept cleared, kvCacheSeqRm c destSeqId (-1) (-1) = some (kept, cleared) ∧
      RemovedFrom c cleared := by
  have notRecurrent : ¬ (c.recurrent && recurrentRmRefused c destSeqId (rangeLow (-1))
      (rangeHigh (-1))) = true := by simp [transformer]
  have swept := sequenceSwept_removed transformer exact_ destSeqId
  simp only [kvCacheSeqRm, if_neg notRecurrent]
  cases guarded : compactRm c destSeqId (rangeLow (-1)) (rangeHigh (-1)) with
  | keep => exact ⟨true, sequenceSwept c destSeqId, rfl, swept⟩
  | refuse => exact ⟨false, c, rfl, exact_, transformer, rfl, rfl, fun _ _ free => free⟩
  | apply head base => exact ⟨true, _, rfl, swept.of_same head base⟩
  | assertFailed =>
    exfalso
    rw [compactRm] at guarded
    split at guarded
    · rename_i compacted
      simp only [Bool.and_eq_true] at compacted
      simp only at guarded
      split at guarded
      · rename_i tripped
        exact tripped.2 (window compacted.1.1 tripped.1)
      · split_ifs at guarded
    · cases guarded

theorem clearedFor_eq {kept : Bool} (single : destSeqId ≠ -1)
    (removal : kvCacheSeqRm c destSeqId (-1) (-1) = some (kept, cleared)) :
    clearedFor c destSeqId = cleared := by
  rw [clearedFor, if_neg single, removal]
  rfl

theorem kvCacheFindSlot_of_freeRun (transformer : c.recurrent = false) (exact_ : c.Exact)
    {batch : Batch} (positive : 0 < batch.tokens.length)
    (run : c.FreeRun start batch.tokens.length) (embdToken : Int) (meta_ : Bool) :
    ∃ after, kvCacheFindSlot c batch embdToken meta_ = (true, after) ∧
      after.head = slotFound c batch.tokens.length := by
  obtain ⟨inside, free⟩ := run
  have fits : batch.tokens.length ≤ c.cells.length := by
    simp only [KvCache.size] at inside
    omega
  have bounded := exact_.head
  have ahead : RunAhead c.cells.length start c.head 0 := runAhead_start bounded inside positive
  have found := findSlotLoop_finds c.cells batch.tokens.length fits start inside free c.head 0 ahead
  have notRecurrent : ¬ c.recurrent = true := by simp [transformer]
  simp only [kvCacheFindSlot, if_neg notRecurrent, dif_pos fits, slotFound]
  cases loop : findSlotLoop c.cells batch.tokens.length fits c.head 0 with
  | mk success head =>
    rw [loop] at found
    cases found
    exact ⟨_, rfl, rfl⟩

structure PlacedSaved (env : ContextEnv) (destSeqId : Int) (saved : SavedCell) (cell : KvCell) :
    Prop where
  pos : cell.pos = saved.pos
  seqId : cell.seqId = {destSeqId}
  token : cell.token = saved.tokenOf env
  posH : cell.posH = saved.pos
  posW : cell.posW = saved.pos
  posE : cell.posE = 0

theorem restoreBatch_length (env : ContextEnv) (destSeqId : Int) (saved : List SavedCell) :
    (restoreBatch env destSeqId saved).tokens.length = saved.length := length_map _

theorem findSlot_restoreBatch (transformer : c.recurrent = false) (exact_ : c.Exact)
    (env : ContextEnv) (destSeqId : Int) (positive : 0 < saved.length)
    (run : c.FreeRun start saved.length) :
    ∃ after, kvCacheFindSlot c (restoreBatch env destSeqId saved) tokenNull false = (true, after) ∧
      after.head = slotFound c saved.length ∧ after.head + saved.length ≤ after.size ∧
      after.used = c.used + saved.length ∧ after.qsa = c.qsa ∧
      ∀ j, (inside : j < saved.length) →
        PlacedSaved env destSeqId saved[j] (after.cell (after.head + j)) := by
  let batch := restoreBatch env destSeqId saved
  have length : batch.tokens.length = saved.length := restoreBatch_length env destSeqId saved
  obtain ⟨after, found, headFound⟩ := kvCacheFindSlot_of_freeRun transformer exact_
    (length.symm ▸ positive) (length.symm ▸ run) tokenNull false
  obtain ⟨head, fits, free, equal⟩ :=
    kvCacheFindSlot_found c after batch tokenNull false transformer exact_.head found
  obtain ⟨_, _, placed, _⟩ :=
    kvCacheFindSlot_cell c after batch tokenNull false transformer exact_.head found
  have empty := exact_.slot_empty head batch.tokens.length free
  have headEq : after.head = head := by rw [equal]
  have size : after.size = c.size := by
    have room : batch.tokens.length ≤ (c.cells.drop head).length := by
      rw [length_drop]
      simp only [KvCache.size] at fits
      omega
    rw [equal, KvCache.size, KvCache.size, length_append, placeTokens_length _ _ _ _ room,
      ← length_append, take_append_drop]
  refine ⟨after, found, length ▸ headFound, ?_, ?_, by rw [equal], ?_⟩
  · rw [size, headEq, ← length]
    exact fits
  · rw [equal, ← length]
  · intro j inside
    have bound : j < batch.tokens.length := length.symm ▸ inside
    obtain ⟨best, cell⟩ := placed j bound
    have token : batch.tokens[j] =
        { token := saved[j].tokenOf env, pos := saved[j].pos, seqIds := [destSeqId] } :=
      getElem_map _
    have old : (c.cell (after.head + j)).seqId = ∅ := by
      have inCells : head + j < c.cells.length := by
        simp only [KvCache.size] at fits
        omega
      rw [headEq, KvCache.cell, getD_eq_getElem _ _ inCells]
      refine empty _ (mem_take_iff_getElem.mpr ⟨j, ?_, ?_⟩)
      · rw [length_drop]
        omega
      · exact getElem_drop
    rw [token] at cell
    rw [cell]
    exact ⟨rfl, by simp [placeCell, old], rfl, rfl, rfl, rfl⟩

theorem restoredBlock_of_placed {env : ContextEnv} (fits : c.head + saved.length ≤ c.size)
    (placed : ∀ j, (inside : j < saved.length) → PlacedSaved env destSeqId saved[j] (c.cell (c.head + j))) :
    restoredBlock c destSeqId saved = true ↔ saved ≠ [] := by
  constructor
  · intro block empty
    rw [empty, restoredBlock] at block
    simp at block
  · intro some
    have positive := length_pos_iff.mpr some
    have first := placed 0 positive
    have last := placed (saved.length - 1) (by omega)
    have lastIndex : c.head + saved.length - 1 = c.head + (saved.length - 1) := by omega
    rw [restoredBlock, List.head?_eq_getElem?, List.getElem?_eq_getElem positive,
      List.getLast?_eq_getElem?, List.getElem?_eq_getElem (by omega), lastIndex]
    simp only [decide_eq_true fits, add_zero] at first ⊢
    simp [first.pos, first.seqId, last.pos, last.seqId]

theorem restoreQsa_restored_iff {env : ContextEnv} {qsa : Bool} {seqId : Int}
    (single : destSeqId ≠ -1) {written cell : KvCell}
    (placed : PlacedSaved env destSeqId (savedCell env qsa seqId written) cell) :
    CellRestored env qsa destSeqId written ((savedCell env qsa seqId written).restoreQsa qsa cell) ↔
      qsa = true ∨ defaultPlanes destSeqId written := by
  have pos : cell.pos = written.pos := placed.pos.trans (by cases qsa <;> rfl)
  have ids : cell.seqId = if destSeqId = -1 then written.seqId else {destSeqId} :=
    placed.seqId.trans (if_neg single).symm
  have token : env.readTokens = true → cell.token = written.token := by
    intro reads
    rw [placed.token]
    cases qsa <;> simp [SavedCell.tokenOf, savedCell, reads]
  cases qsa with
  | true =>
    exact ⟨fun _ => Or.inl rfl, fun _ => ⟨pos, ids, ⟨rfl, rfl, rfl⟩, token, fun _ => rfl⟩⟩
  | false =>
    rw [defaultPlanes, if_neg single]
    constructor
    · intro restored
      obtain ⟨posH, posW, posE⟩ := restored.planes
      exact Or.inr ⟨posH.symm.trans placed.posH, posW.symm.trans placed.posW,
        posE.symm.trans placed.posE⟩
    · intro defaults
      obtain ⟨posH, posW, posE⟩ := defaults.resolve_left Bool.false_ne_true
      exact ⟨pos, ids, ⟨placed.posH.trans posH.symm, placed.posW.trans posW.symm,
        placed.posE.trans posE.symm⟩, token, fun impossible => by cases impossible⟩

def blockRestored (c : KvCache) (saved : List SavedCell) : KvCache :=
  { c with
    cells := c.cells.take c.head ++
      overwriteCells (SavedCell.restoreQsa c.qsa) (c.cells.drop c.head) saved }

theorem blockRestored_cell (fits : c.head + saved.length ≤ c.size) {j : Nat}
    (inside : j < saved.length) : (blockRestored c saved).cell (c.head + j) =
      saved[j].restoreQsa c.qsa (c.cell (c.head + j)) := by
  simp only [KvCache.size] at fits
  have room : saved.length ≤ (c.cells.drop c.head).length := by
    rw [length_drop]
    omega
  have prefixLength : (c.cells.take c.head).length = c.head := by
    rw [length_take]
    omega
  have placed := overwriteCells_getD (SavedCell.restoreQsa c.qsa) (c.cells.drop c.head) saved room j
  rw [List.getElem?_eq_getElem inside] at placed
  have old : (c.cells.drop c.head).getD j {} = c.cell (c.head + j) := by
    rw [KvCache.cell, getD_eq_getElem?_getD, getD_eq_getElem?_getD, List.getElem?_drop]
  rw [old] at placed
  rw [KvCache.cell, blockRestored, getD_eq_getElem?_getD,
    List.getElem?_append_right (by omega), prefixLength, Nat.add_sub_cancel_left]
  exact placed

theorem readSeqMeta_nil (env : ContextEnv) (c after : KvCache) (destSeqId : Int) :
    readSeqMeta env c destSeqId [] ≠ some (true, after) := by
  intro read
  simp only [readSeqMeta] at read
  split at read
  · cases read
  · split at read
    · cases read
    · split at read
      · split at read
        · cases read
        · split at read
          · rename_i block
            simp [restoredBlock] at block
          · cases read
      · cases read

theorem readSeqMeta_placed (transformer : c.recurrent = false) (exact_ : c.Exact)
    (window : c.WindowSound) (env : ContextEnv) (destSeqId : Int)
    (noIds : ∀ s ∈ saved, s.seqIds = []) (positive : 0 < saved.length)
    (run : c.FreeRun start saved.length) :
    ∃ kept cleared placed, kvCacheSeqRm c destSeqId (-1) (-1) = some (kept, cleared) ∧
      readSeqMeta env c destSeqId saved = some (true, blockRestored placed saved) ∧
      placed.head = slotFound cleared saved.length ∧ placed.head + saved.length ≤ placed.size ∧
      placed.used = cleared.used + saved.length ∧ placed.qsa = c.qsa ∧
      ∀ j, (inside : j < saved.length) →
        PlacedSaved env destSeqId saved[j] (placed.cell (placed.head + j)) := by
  obtain ⟨kept, cleared, removal, removed⟩ := seqRm_removed transformer exact_ window destSeqId
  obtain ⟨placed, found, head, fits, used, qsa, cells⟩ := findSlot_restoreBatch removed.recurrent
    removed.exact_ env destSeqId positive (removed.freeRun run)
  have block := (restoredBlock_of_placed fits cells).mpr (length_pos_iff.mp positive)
  have agnostic : saved.all (fun s => s.seqIds.isEmpty) = true := by
    rw [all_eq_true]
    intro s member
    rw [noIds s member]
    rfl
  have small : ¬ c.size < saved.length := by
    have inside := run.1
    omega
  refine ⟨kept, cleared, placed, removal, ?_, head, fits, used, qsa.trans removed.qsa, cells⟩
  rw [readSeqMeta, if_neg small, removal]
  simp only [agnostic, found, block]
  rfl

theorem restores_sequence_iff (env : ContextEnv) (openPangu : Bool) (source target : KvCache)
    {seqId : Int} (single : seqId ≠ -1) (singleDest : destSeqId ≠ -1)
    (transformer : target.recurrent = false) (exact_ : target.Exact) (window : target.WindowSound)
    (sameQsa : source.qsa = target.qsa) (run : target.FreeRun start (cellCount source seqId)) :
    Restores env openPangu source target seqId destSeqId ↔
      Restorable env openPangu source target seqId destSeqId := by
  let saved := (writtenCells source seqId).map (savedCell env target.qsa seqId)
  have savedLength : saved.length = cellCount source seqId := by
    rw [length_map, length_writtenCells]
  have fits : ¬ target.size < cellCount source seqId := by
    have inside := run.1
    omega
  have noIds : ∀ s ∈ saved, s.seqIds = [] := by
    intro s member
    obtain ⟨cell, _, equal⟩ := mem_map.mp member
    rw [← equal]
    cases qsa : target.qsa <;> simp [savedCell, writtenIds, single]
  have read : readKvCacheMeta env openPangu target (cellCount source seqId) destSeqId
      (writeKvCacheMeta env source (cellRanges source seqId) seqId) =
        if cellCount source seqId = 0 ∧ openPangu = true then some (false, target)
        else (readSeqMeta env target destSeqId saved).bind (checkOpenPangu openPangu) := by
    have cells := readSeqCells_write env target.qsa single (writtenCells source seqId) []
    rw [append_nil, length_writtenCells] at cells
    rw [readKvCacheMeta, ← sameQsa, readMarker_writeKvCacheMeta, sameQsa]
    simp only [if_pos singleDest, readSequence, cells, if_neg fits]
    rfl
  by_cases none : writtenCells source seqId = []
  · refine iff_of_false (fun restored => ?_) fun restorable => restorable.someCell singleDest none
    obtain ⟨after, ran, _⟩ := restored
    have empty : saved = [] := by simp only [saved, none, map_nil]
    rw [read, empty] at ran
    split at ran
    · cases ran
    · obtain ⟨⟨success, state⟩, restored, checked⟩ := Option.bind_eq_some_iff.mp ran
      cases success with
      | false => cases checked
      | true => exact readSeqMeta_nil env target state destSeqId restored
  · have positive : 0 < saved.length := by
      rw [length_map]
      exact length_pos_iff.mpr none
    have nonzero : ¬ (cellCount source seqId = 0 ∧ openPangu = true) := by
      omega
    obtain ⟨kept, cleared, placed, removal, restored, head, inside, used, qsa, cells⟩ :=
      readSeqMeta_placed transformer exact_ window env destSeqId noIds positive (savedLength ▸ run)
    rw [if_neg nonzero, restored, Option.bind_some] at read
    have clearedEq := clearedFor_eq singleDest removal
    have cells_iff : (∀ i, (inRange : i < (writtenCells source seqId).length) →
        CellRestored env target.qsa destSeqId (writtenCells source seqId)[i]
          ((blockRestored placed saved).cell ((blockRestored placed saved).head + i))) ↔
        target.qsa = true ∨ ∀ cell ∈ writtenCells source seqId, defaultPlanes destSeqId cell := by
      refine forall_cells_iff fun i inRange => ?_
      have insideSaved : i < saved.length := by rwa [length_map]
      have placedCell := cells i insideSaved
      have cell := blockRestored_cell inside insideSaved
      change CellRestored env target.qsa destSeqId _ ((blockRestored placed saved).cell (placed.head + i)) ↔ _
      rw [cell, qsa]
      simp only [saved, getElem_map] at placedCell ⊢
      exact restoreQsa_restored_iff singleDest placedCell
    constructor
    · intro result
      obtain ⟨after, ran, equal, _⟩ := result
      rw [read, checkOpenPangu] at ran
      split at ran
      · cases ran
      · rename_i noPangu
        cases ran
        refine ⟨cells_iff.mp equal, fun whole => absurd whole singleDest, fun _ => none, ?_⟩
        intro _ pangu
        rw [clearedEq, ← savedLength, ← head]
        by_contra elsewhere
        refine noPangu ?_
        rw [pangu]
        exact bne_iff_ne.mpr elsewhere
    · intro restorable
      refine ⟨blockRestored placed saved, ?_, cells_iff.mpr restorable.planes, ?_⟩
      · rw [read]
        refine if_neg fun elsewhere => ?_
        obtain ⟨pangu, moved⟩ := Bool.and_eq_true_iff.mp elsewhere
        have first := restorable.firstCell singleDest pangu
        rw [clearedEq, ← savedLength, ← head] at first
        exact bne_iff_ne.mp moved first
      · rw [clearedEq, ← savedLength]
        exact used

/-- A written state is restored exactly when the target keeps its planes, its sequence ids are in
range, and a sequence has cells that land where openPangu wants them. -/
theorem restores_iff (env : ContextEnv) (openPangu : Bool) (source target : KvCache)
    (seqId destSeqId : Int) (modes : seqId = -1 ↔ destSeqId = -1)
    (transformer : target.recurrent = false) (exact_ : target.Exact) (window : target.WindowSound)
    (sameQsa : source.qsa = target.qsa) (sameSize : source.size = target.size)
    (room : ∃ start, target.FreeRun start (cellCount source seqId)) :
    Restores env openPangu source target seqId destSeqId ↔
      Restorable env openPangu source target seqId destSeqId := by
  by_cases whole : destSeqId = -1
  · rw [whole, modes.mpr whole]
    exact restores_whole_iff env openPangu source target sameQsa sameSize
  · have single : seqId ≠ -1 := fun all => whole (modes.mp all)
    obtain ⟨start, run⟩ := room
    exact restores_sequence_iff env openPangu source target single whole transformer exact_ window
      sameQsa run

def textCache : KvCache where
  mrope := true
  used := 2
  head := 2
  cells := [{ pos := 0, qsaPos := 0, seqId := {0} },
    { pos := 1, qsaPos := 1, posH := 1, posW := 1, seqId := {0} }, {}]

def emptyTextCache : KvCache where
  mrope := true
  cells := [{}, {}, {}]

theorem emptyTextCache_exact : emptyTextCache.Exact where
  cells := by
    intro cell member
    have free : cell = {} := by simpa [emptyTextCache] using member
    rw [free]
    exact KvCell.release_exact {}
  used := by decide
  head := Nat.zero_le _

theorem restores_iff_at_textCache :
    Restores {} false textCache emptyTextCache 0 5 ↔
      Restorable {} false textCache emptyTextCache 0 5 :=
  restores_iff {} false textCache emptyTextCache 0 5 (by decide) rfl emptyTextCache_exact
    (fun impossible => by cases impossible) rfl rfl ⟨0, by decide, by decide⟩

/-- The whole text cache comes back with other planes, and the state of a sequence that owns no
cell is not restored at all. -/
theorem textCache_not_restored :
    ¬ Restores {} false textCache emptyTextCache (-1) (-1) ∧
      ¬ Restores {} false textCache emptyTextCache 7 7 := by
  constructor
  · rw [restores_whole_iff {} false textCache emptyTextCache rfl rfl]
    intro restorable
    have defaults := restorable.planes.resolve_left Bool.false_ne_true
    have second := defaults { pos := 1, qsaPos := 1, posH := 1, posW := 1, seqId := {0} } (by decide)
    exact absurd second.1 (by decide)
  · have room : emptyTextCache.FreeRun 0 (cellCount textCache 7) := ⟨by decide, by decide⟩
    rw [restores_sequence_iff {} false textCache emptyTextCache (by decide) (by decide) rfl
      emptyTextCache_exact (fun impossible => by cases impossible) rfl room]
    exact fun restorable => restorable.someCell (by decide) (by decide)

end LlamaCpp.Kv
