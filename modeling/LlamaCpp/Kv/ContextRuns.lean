import LlamaCpp.Kv.Context
import LlamaCpp.Kv.EntryRuns

/-!
# Runs of a context

Updates and state restores keep the bookkeeping as exact as the cache operations do,
and no step changes the number of cells.
-/

set_option autoImplicit false

namespace LlamaCpp.Kv

open LlamaCpp.Lib List Bool

variable {c c' : KvCache} {env : ContextEnv} {destSeqId : Int} {saved : List SavedCell}
  {restored : Bool}

theorem KvCache.Exact.usedExact (exact_ : c.Exact) : UsedExact c :=
  ⟨fun cell member => (exact_.cells cell member).mpr, exact_.used⟩

/-- Exactness depends on the tags of the cells, on `used` and on the head. -/
theorem KvCache.Exact.of_tags (exact_ : c.Exact)
    (tags : c'.cells.map KvCell.tag = c.cells.map KvCell.tag) (used : c'.used = c.used)
    (head : c'.head ≤ c'.size) : c'.Exact := by
  refine ⟨forall_exact_congr tags exact_.cells, ?_, head⟩
  rw [used, exact_.used, countP_isEmpty_congr tags]

theorem applyShift_exact (env : ContextEnv) (exact_ : c.Exact) : (applyShift env c).Exact := by
  unfold applyShift
  split
  · refine exact_.of_tags ?_ rfl ?_
    · simp only [kShift, map_map]
      rfl
    · simpa [kShift, KvCache.size] using exact_.head
  · exact exact_

theorem applyShift_plain (plain : c.Plain) : (applyShift env c).Plain := by
  unfold applyShift
  split
  · exact ⟨plain.recurrent, plain.compacted⟩
  · exact plain

theorem applyStateCopy_exact (exact_ : c.Exact) : (applyStateCopy c).Exact := by
  unfold applyStateCopy
  split
  · refine exact_.of_tags ?_ rfl ?_
    · apply ext_getElem <;> simp [stateCopy, KvCell.tag]
    · simpa [stateCopy, KvCache.size] using exact_.head
  · exact exact_

theorem applyStateCopy_plain (plain : c.Plain) : (applyStateCopy c).Plain := by
  unfold applyStateCopy
  split
  · exact ⟨plain.recurrent, plain.compacted⟩
  · exact plain

theorem applyDefrag_exact (exact_ : c.Exact) (success : applyDefrag env c = some c') :
    c'.Exact := by
  unfold applyDefrag at success
  split at success
  · obtain ⟨s, frontier, result, state, _⟩ :=
      kvCacheDefragInternal_state exact_.usedExact env.maxMoves
    rw [result, Option.map_some, Option.some.injEq] at success
    subst c'
    have sizes := exact_.usedExact.used_le_cellMax
    have most := kvCacheCellMax_le c
    have length := state.relocated.length
    refine ⟨?_, ?_, ?_⟩
    · intro cell member
      obtain ⟨k, inside, equal⟩ := getElem_of_mem member
      have here : s.cell k = cell := by
        rw [DefragState.cell, getD_eq_getElem _ _ inside, equal]
      rw [← here]
      rcases state.cell_cases k with blank | ⟨i, old⟩
      · rw [blank]
        simp [KvCell.Exact]
      · rw [old]
        by_cases present : i < c.size
        · rw [KvCache.cell, getD_eq_getElem _ _ present]
          exact exact_.cells _ (getElem_mem present)
        · rw [KvCache.cell, getD_eq_default _ _ (not_lt.mp present)]
          simp [KvCell.Exact]
    · exact exact_.used.trans (congrArg Nat.cast state.relocated.count.symm)
    · have bounded := exact_.head
      simp only [KvCache.size] at most bounded ⊢
      rcases state.head with kept | moved <;> omega
  · rw [Option.some.injEq] at success
    exact success ▸ exact_

theorem applyDefrag_plain (plain : c.Plain) (success : applyDefrag env c = some c') : c'.Plain := by
  unfold applyDefrag at success
  split at success
  · obtain ⟨s, _, moved⟩ := Option.map_eq_some_iff.mp success
    rw [← moved]
    exact ⟨plain.recurrent, plain.compacted⟩
  · rw [Option.some.injEq] at success
    exact success ▸ plain

theorem kvCacheUpdate_exact {updated : Bool} (plain : c.Plain) (exact_ : c.Exact)
    (success : kvCacheUpdate env c = some (updated, c')) : c'.Exact ∧ c'.Plain := by
  rcases kvCacheUpdate_cases success with ⟨_, refused⟩ | ⟨_, ran⟩
  · exact refused ▸ ⟨exact_, plain⟩
  · exact ⟨applyDefrag_exact (applyStateCopy_exact (applyShift_exact env exact_)) ran,
      applyDefrag_plain (applyStateCopy_plain (applyShift_plain plain)) ran⟩

theorem overwriteCells_length (f : SavedCell → KvCell → KvCell) (cells : List KvCell)
    (saved : List SavedCell) (fits : saved.length ≤ cells.length) :
    (overwriteCells f cells saved).length = cells.length := by
  induction saved generalizing cells with
  | nil => simp [overwriteCells]
  | cons s saved ih =>
    cases cells with
    | nil => simp at fits
    | cons cell cells =>
      simp only [overwriteCells, length_cons]
      rw [ih cells (by simpa using fits)]

theorem overwriteCells_map {β : Type*} (f : SavedCell → KvCell → KvCell) (g : KvCell → β)
    (same : ∀ s cell, g (f s cell) = g cell) (cells : List KvCell) (saved : List SavedCell)
    (fits : saved.length ≤ cells.length) : (overwriteCells f cells saved).map g = cells.map g := by
  induction saved generalizing cells with
  | nil => simp [overwriteCells]
  | cons s saved ih =>
    cases cells with
    | nil => simp at fits
    | cons cell cells =>
      simp only [overwriteCells, map_cons, same]
      rw [ih cells (by simpa using fits)]

theorem restoreQsa_tag (qsa : Bool) (s : SavedCell) (cell : KvCell) :
    (s.restoreQsa qsa cell).tag = cell.tag := by
  cases qsa <;> rfl

theorem overwriteCells_getD (f : SavedCell → KvCell → KvCell) (cells : List KvCell)
    (saved : List SavedCell) (fits : saved.length ≤ cells.length) (i : Nat) :
    (overwriteCells f cells saved).getD i {} =
      match saved[i]? with
      | some s => f s (cells.getD i {})
      | none => cells.getD i {} := by
  induction saved generalizing cells i with
  | nil => simp [overwriteCells]
  | cons s saved ih =>
    cases cells with
    | nil => simp at fits
    | cons cell cells =>
      cases i with
      | zero => rfl
      | succ i =>
        exact ih cells (by simpa using fits) i

theorem overwriteCells_exact (env : ContextEnv) (qsa : Bool) (cells : List KvCell)
    (saved : List SavedCell) (fits : saved.length ≤ cells.length)
    (valid : ∀ s ∈ saved, 0 ≤ s.pos ∧ s.seqIds ≠ [])
    (empty : ∀ cell ∈ cells, cell.Exact ∧ cell.isEmpty = true) :
    (∀ cell ∈ overwriteCells (SavedCell.restoreCell env qsa) cells saved, cell.Exact) ∧
      (overwriteCells (SavedCell.restoreCell env qsa) cells saved).countP (!·.isEmpty) =
        saved.length := by
  induction saved generalizing cells with
  | nil =>
    refine ⟨fun cell member => (empty cell (by simpa [overwriteCells] using member)).1, ?_⟩
    rw [length_nil, countP_eq_zero]
    intro cell member
    simp only [not_eq_true', not_eq_false]
    exact (empty cell (by simpa [overwriteCells] using member)).2
  | cons s saved ih =>
    cases cells with
    | nil => simp at fits
    | cons old cells =>
      obtain ⟨laterExact, laterCount⟩ := ih cells (by simpa using fits)
        (fun other member => valid other (mem_cons_of_mem _ member))
        (fun cell member => empty cell (mem_cons_of_mem _ member))
      obtain ⟨nonneg, someSeq⟩ := valid s (mem_cons_self ..)
      have position : (s.restoreCell env qsa old).pos = s.pos := by cases qsa <;> rfl
      have filled : (s.restoreCell env qsa old).seqId.Nonempty := by
        obtain ⟨id, inside⟩ := exists_mem_of_ne_nil _ someSeq
        exact ⟨id, by simp [SavedCell.restoreCell, inside]⟩
      constructor
      · intro cell member
        simp only [overwriteCells, mem_cons] at member
        rcases member with here | later
        · rw [here]
          exact ⟨fun _ => filled, fun _ => position ▸ nonneg⟩
        · exact laterExact cell later
      · simp only [overwriteCells, countP_cons, laterCount]
        rw [(KvCell.isEmpty_false_iff _).mpr filled]
        rfl

theorem kvCacheClear_empty (c : KvCache) :
    ∀ cell ∈ (kvCacheClear c).cells, cell.Exact ∧ cell.isEmpty = true := by
  intro cell member
  obtain ⟨i, inside, equal⟩ := mem_mapIdx.mp member
  subst cell
  exact ⟨KvCell.release_exact c.cells[i], KvCell.release_isEmpty c.cells[i]⟩

theorem seqRm_exact {removed : Bool} {seqId p0 p1 : Int} (plain : c.Plain) (exact_ : c.Exact)
    (success : kvCacheSeqRm c seqId p0 p1 = some (removed, c')) : c'.Exact ∧ c'.Plain :=
  cacheStep_exact c c' (.seqRm seqId p0 p1) plain exact_ trivial (by simp [cacheStep, success])

theorem clear_exact (plain : c.Plain) (exact_ : c.Exact) :
    (kvCacheClear c).Exact ∧ (kvCacheClear c).Plain :=
  cacheStep_exact c _ .clear plain exact_ trivial rfl

theorem restoredBlock_fits (block : restoredBlock c destSeqId saved = true) :
    c.head + saved.length ≤ c.size := by
  unfold restoredBlock at block
  rw [and_eq_true] at block
  exact of_decide_eq_true block.1

theorem readSeqMeta_exact (plain : c.Plain) (exact_ : c.Exact) (valid : ∀ s ∈ saved, 0 ≤ s.pos)
    (success : readSeqMeta env c destSeqId saved = some (restored, c')) : c'.Exact ∧ c'.Plain := by
  unfold readSeqMeta at success
  split at success
  · cases success
    exact ⟨exact_, plain⟩
  · split at success
    · cases success
    · rename_i removed cleared removal
      obtain ⟨clearedExact, clearedPlain⟩ := seqRm_exact plain exact_ removal
      split at success
      · have batchValid : ∀ tok ∈ (restoreBatch env destSeqId saved).tokens,
            0 ≤ tok.pos ∧ tok.seqIds ≠ [] := by
          intro tok member
          obtain ⟨s, inside, equal⟩ := mem_map.mp member
          rw [← equal]
          exact ⟨valid s inside, cons_ne_nil _ _⟩
        split at success
        · rename_i placed search
          cases success
          exact findSlot_exact _ _ _ _ _ _ clearedPlain clearedExact batchValid search
        · rename_i placed search
          obtain ⟨placedExact, placedPlain⟩ :=
            findSlot_exact _ _ _ _ _ _ clearedPlain clearedExact batchValid search
          split at success
          · rename_i block
            cases success
            have fits : saved.length ≤ (placed.cells.drop placed.head).length := by
              have inside := restoredBlock_fits block
              simp only [KvCache.size] at inside
              rw [length_drop]
              omega
            refine ⟨placedExact.of_tags ?_ rfl ?_, ⟨placedPlain.recurrent, placedPlain.compacted⟩⟩
            · rw [map_append, overwriteCells_map _ _ (restoreQsa_tag _) _ _ fits,
                ← map_append, take_append_drop]
            · have bounded := placedExact.head
              simp only [KvCache.size, length_append, length_take] at bounded ⊢
              omega
          · cases success
      · cases success
        exact ⟨clearedExact, clearedPlain⟩

theorem readAllMeta_exact (plain : c.Plain) (exact_ : c.Exact)
    (valid : ∀ s ∈ saved, 0 ≤ s.pos ∧ s.seqIds ≠ [])
    (success : readAllMeta env c saved = (restored, c')) : c'.Exact ∧ c'.Plain := by
  unfold readAllMeta at success
  split at success
  · cases success
    exact ⟨exact_, plain⟩
  · rename_i roomy
    obtain ⟨clearedExact, clearedPlain⟩ := clear_exact plain exact_
    split at success
    · cases success
      have fits : saved.length ≤ (kvCacheClear c).cells.length := by
        simpa [kvCacheClear, KvCache.size] using not_lt.mp roomy
      obtain ⟨cells, count⟩ :=
        overwriteCells_exact env (kvCacheClear c).qsa _ saved fits valid (kvCacheClear_empty c)
      exact ⟨⟨cells, congrArg Nat.cast count.symm, Nat.zero_le _⟩,
        ⟨clearedPlain.recurrent, clearedPlain.compacted⟩⟩
    · cases success
      exact ⟨clearedExact, clearedPlain⟩

theorem readKvCache_exact {dataRead : Bool} (plain : c.Plain) (exact_ : c.Exact)
    (valid : ContextOp.Valid (.readState destSeqId saved dataRead))
    (success : readKvCache env c destSeqId saved dataRead = some c') : c'.Exact ∧ c'.Plain := by
  unfold readKvCache at success
  split at success
  · rename_i whole
    cases read : readAllMeta env c saved with
    | mk restored after =>
      obtain ⟨afterExact, afterPlain⟩ := readAllMeta_exact plain exact_
        (fun s member => ⟨(valid s member).1, (valid s member).2 whole⟩) read
      simp only [read, Option.some.injEq] at success
      subst c'
      split
      · exact ⟨afterExact, afterPlain⟩
      · exact clear_exact afterPlain afterExact
  · split at success
    · cases success
    · rename_i restored after read
      obtain ⟨afterExact, afterPlain⟩ :=
        readSeqMeta_exact plain exact_ (fun s member => (valid s member).1) read
      split at success
      · cases success
        exact ⟨afterExact, afterPlain⟩
      · obtain ⟨⟨removed, last⟩, removal, equal⟩ := Option.map_eq_some_iff.mp success
        cases equal
        exact seqRm_exact afterPlain afterExact removal

theorem contextStep_exact (env : ContextEnv) (c c' : KvCache) (op : ContextOp) (plain : c.Plain)
    (exact_ : c.Exact) (valid : op.Valid) (stepped : contextStep env c op = some c') :
    c'.Exact ∧ c'.Plain := by
  cases op with
  | cache op => exact cacheStep_exact c c' op plain exact_ valid stepped
  | defrag =>
    simp only [contextStep, Option.some.injEq] at stepped
    subst c'
    unfold kvCacheDefrag
    split
    · exact ⟨exact_, plain⟩
    · exact ⟨⟨exact_.cells, exact_.used, exact_.head⟩, ⟨plain.recurrent, plain.compacted⟩⟩
  | update =>
    obtain ⟨⟨updated, last⟩, ran, equal⟩ := Option.map_eq_some_iff.mp stepped
    cases equal
    exact kvCacheUpdate_exact plain exact_ ran
  | readState destSeqId saved dataRead => exact readKvCache_exact plain exact_ valid stepped

theorem findSlot_size {batch : Batch} {embdToken : Int} {meta_ found : Bool} (plain : c.Plain)
    (bounded : c.head ≤ c.size) (searched : kvCacheFindSlot c batch embdToken meta_ = (found, c')) :
    c'.size = c.size := by
  cases found with
  | false =>
    obtain ⟨head, _, equal⟩ :=
      kvCacheFindSlot_full c c' batch embdToken meta_ plain.recurrent bounded searched
    rw [equal]
    rfl
  | true =>
    obtain ⟨head, fits, _, equal⟩ :=
      kvCacheFindSlot_found c c' batch embdToken meta_ plain.recurrent bounded searched
    rw [equal]
    simp only [KvCache.size] at fits ⊢
    rw [length_append, placeTokens_length _ _ _ _ (by rw [length_drop]; omega),
      length_take, length_drop]
    omega

theorem sweep_size (c : KvCache) (visit : Nat → KvCell → CellVisit) :
    (c.sweep visit).cells.length = c.size := by
  simp [KvCache.sweep_cells, KvCache.size]

theorem cacheStep_size (op : CacheOp) (plain : c.Plain) (bounded : c.head ≤ c.size)
    (stepped : cacheStep c op = some c') : c'.size = c.size := by
  cases op with
  | searchFromStart nTokens =>
    simp only [cacheStep, searchFromStart, Option.some.injEq] at stepped
    split at stepped <;> (subst c'; rfl)
  | findSlot batch embdToken meta_ =>
    simp only [cacheStep] at stepped
    cases searched : kvCacheFindSlot c batch embdToken meta_ with
    | mk found placed =>
      have kept := findSlot_size plain bounded searched
      rw [searched] at stepped
      cases found <;> (simp only [Option.some.injEq] at stepped; subst c'; exact kept)
  | seqRm seqId p0 p1 =>
    simp only [cacheStep, kvCacheSeqRm_plain c _ _ _ plain, Option.map_some,
      Option.some.injEq] at stepped
    subst c'
    exact sweep_size c _
  | seqCp src dst p0 p1 =>
    have same := congrArg List.length (kvCacheSeqCp_tags c c' src dst p0 p1 plain stepped)
    simpa [KvCache.size] using same
  | seqKeep seqId =>
    simp only [cacheStep, Option.some.injEq] at stepped
    subst c'
    exact sweep_size c _
  | seqAdd seqId p0 p1 delta =>
    obtain ⟨-, rfl⟩ | rfl := kvCacheSeqAdd_plain plain stepped
    · rfl
    · exact sweep_size c _
  | seqDiv seqId p0 p1 d =>
    obtain ⟨-, rfl⟩ | rfl := kvCacheSeqDiv_plain plain stepped
    · rfl
    · exact sweep_size c _
  | clear =>
    simp only [cacheStep, kvCacheClear, Option.some.injEq] at stepped
    subst c'
    simp [KvCache.size]

theorem applyShift_size (env : ContextEnv) (c : KvCache) : (applyShift env c).size = c.size := by
  unfold applyShift
  split <;> simp [kShift, KvCache.size]

theorem applyStateCopy_size (c : KvCache) : (applyStateCopy c).size = c.size := by
  unfold applyStateCopy
  split <;> simp [stateCopy, KvCache.size]

theorem applyDefrag_size (exact_ : c.Exact) (success : applyDefrag env c = some c') :
    c'.size = c.size := by
  unfold applyDefrag at success
  split at success
  · obtain ⟨s, frontier, result, state, _⟩ :=
      kvCacheDefragInternal_state exact_.usedExact env.maxMoves
    rw [result, Option.map_some, Option.some.injEq] at success
    rw [← success]
    exact state.relocated.length
  · rw [Option.some.inj success]

theorem readSeqMeta_size (plain : c.Plain) (exact_ : c.Exact)
    (success : readSeqMeta env c destSeqId saved = some (restored, c')) : c'.size = c.size := by
  unfold readSeqMeta at success
  split at success
  · cases success
    rfl
  · split at success
    · cases success
    · rename_i removed cleared removal
      obtain ⟨clearedExact, clearedPlain⟩ := seqRm_exact plain exact_ removal
      have clearedSize : cleared.size = c.size :=
        cacheStep_size (.seqRm destSeqId (-1) (-1)) plain exact_.head
          (by simp [cacheStep, removal])
      split at success
      · split at success
        · rename_i placed search
          cases success
          rw [findSlot_size clearedPlain clearedExact.head search, clearedSize]
        · rename_i placed search
          have placedSize := findSlot_size clearedPlain clearedExact.head search
          split at success
          · rename_i block
            cases success
            have inside := restoredBlock_fits block
            rw [← clearedSize, ← placedSize]
            simp only [KvCache.size] at inside ⊢
            rw [length_append, overwriteCells_length _ _ _ (by rw [length_drop]; omega),
              length_take, length_drop]
            omega
          · cases success
      · cases success
        exact clearedSize

theorem clear_size (c : KvCache) : (kvCacheClear c).size = c.size := by
  simp [kvCacheClear, KvCache.size]

theorem readAllMeta_size (success : readAllMeta env c saved = (restored, c')) :
    c'.size = c.size := by
  unfold readAllMeta at success
  split at success
  · cases success
    rfl
  · rename_i roomy
    split at success
    · cases success
      have fits : saved.length ≤ (kvCacheClear c).cells.length := by
        simpa [kvCacheClear, KvCache.size] using not_lt.mp roomy
      rw [← clear_size c]
      exact overwriteCells_length _ _ _ fits
    · cases success
      exact clear_size c

theorem readKvCache_size {dataRead : Bool} (plain : c.Plain) (exact_ : c.Exact)
    (valid : ContextOp.Valid (.readState destSeqId saved dataRead))
    (success : readKvCache env c destSeqId saved dataRead = some c') : c'.size = c.size := by
  unfold readKvCache at success
  split at success
  · cases read : readAllMeta env c saved with
    | mk restored after =>
      have afterSize := readAllMeta_size read
      simp only [read, Option.some.injEq] at success
      subst c'
      split
      · exact afterSize
      · rw [clear_size, afterSize]
  · split at success
    · cases success
    · rename_i restored after read
      have afterSize := readSeqMeta_size plain exact_ read
      obtain ⟨afterExact, afterPlain⟩ :=
        readSeqMeta_exact plain exact_ (fun s member => (valid s member).1) read
      split at success
      · cases success
        exact afterSize
      · rw [← afterSize]
        exact cacheStep_size (.seqRm destSeqId (-1) (-1)) afterPlain afterExact.head success

theorem contextStep_size {op : ContextOp} (plain : c.Plain) (exact_ : c.Exact) (valid : op.Valid)
    (stepped : contextStep env c op = some c') : c'.size = c.size := by
  cases op with
  | cache op => exact cacheStep_size op plain exact_.head stepped
  | defrag =>
    simp only [contextStep, Option.some.injEq] at stepped
    subst c'
    unfold kvCacheDefrag
    split <;> rfl
  | update =>
    obtain ⟨⟨updated, last⟩, ran, equal⟩ := Option.map_eq_some_iff.mp stepped
    cases equal
    rcases kvCacheUpdate_cases ran with ⟨_, refused⟩ | ⟨_, moved⟩
    · rw [refused]
    · rw [applyDefrag_size (applyStateCopy_exact (applyShift_exact env exact_)) moved,
        applyStateCopy_size, applyShift_size]
  | readState destSeqId saved dataRead => exact readKvCache_size plain exact_ valid stepped

theorem kvCacheInit_size (cfg : KvConfig) (kvSize : Nat) :
    (kvCacheInit cfg kvSize).size = kvSize := by
  simp [kvCacheInit, KvCache.size]

theorem context_reaches_exact (env : ContextEnv) (cfg : KvConfig) (kvSize : Nat)
    (transformer : cfg.recurrent = false) (c : KvCache)
    (run : Reaches (contextStep env) (fun _ op => op.Valid) (kvCacheInit cfg kvSize) c) :
    c.Exact ∧ c.Plain ∧ c.size = kvSize :=
  run.invariant (fun c => c.Exact ∧ c.Plain ∧ c.size = kvSize)
    ⟨kvCacheInit_exact cfg kvSize, kvCacheInit_plain cfg kvSize transformer,
      kvCacheInit_size cfg kvSize⟩
    (fun state op next holds valid stepped => by
      obtain ⟨nextExact, nextPlain⟩ :=
        contextStep_exact env state next op holds.2.1 holds.1 valid stepped
      exact ⟨nextExact, nextPlain, (contextStep_size holds.2.1 holds.1 valid stepped).trans
        holds.2.2⟩)

end LlamaCpp.Kv
