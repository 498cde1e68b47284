import LlamaCpp.Kv.ContextRuns

/-!
# Recorded state sources of a hybrid cache

`cells[s].src` records, for the sequence slot `s`, where its recurrent state comes
from; every other field of the same struct belongs to the token cell `s`.
`SlotRun` carries along the source that the copies since the last update designate.
The two agree as long as no pass over the token cells resets the source of a slot
that has one, and no defrag pass moves a token cell into or out of a slot index.
-/

set_option autoImplicit false

namespace LlamaCpp.Kv

open LlamaCpp.Lib List

structure SlotRun where
  cache : KvCache
  designated : Nat → Int

def updateCopies (env : ContextEnv) (c : KvCache) : Bool :=
  !updateRefused env c && copiesStates c

def designatedAfter (env : ContextEnv) (c : KvCache) (designated : Nat → Int) :
    ContextOp → Nat → Int
  | .cache (.seqCp src dst _ _) =>
    if recordsStateSource c src dst then
      Function.update designated dst.toNat (designated src.toNat)
    else designated
  | .update => if updateCopies env c then fun s => s else designated
  | _ => designated

def slotStep (env : ContextEnv) (run : SlotRun) (op : ContextOp) : Option SlotRun :=
  (contextStep env run.cache op).map fun c =>
    { cache := c, designated := designatedAfter env run.cache run.designated op }

def ContextOp.Running : ContextOp → Prop
  | .cache .clear => False
  | .readState .. => False
  | _ => True

instance : (op : ContextOp) → Decidable op.Running
  | .cache .clear | .readState .. => isFalse not_false
  | .cache (.searchFromStart _) | .cache (.findSlot ..) | .cache (.seqRm ..) | .cache (.seqCp ..)
  | .cache (.seqKeep _) | .cache (.seqAdd ..) | .cache (.seqDiv ..) | .defrag | .update =>
    isTrue trivial

/-- The defrag pass, if one is pending, moves no token cell into or out of a slot
index: below `n_slots` the non-empty cells are exactly those below `used`. -/
def DefragSparesSlots (c : KvCache) : Prop :=
  c.doDefrag = true → ∀ s, s < c.qnextSlots → ((s : Int) < c.used ↔ (c.cell s).isEmpty = false)

def FreesOwnSources (c : KvCache) (visit : Nat → KvCell → CellVisit) : Prop :=
  ∀ s, s < c.qnextSlots → (visit s (c.cell s)).freed = true → (c.cell s).src = s

def ContextOp.SparesSources (env : ContextEnv) (c : KvCache) : ContextOp → Prop
  | .cache (.seqRm seqId p0 p1) =>
    FreesOwnSources c (seqRmVisit c.hasQnextStateStorage seqId (rangeLow p0) (rangeHigh p1))
  | .cache (.seqKeep seqId) => FreesOwnSources c (seqKeepVisit c.hasQnextStateStorage seqId)
  | .update => updateRefused env c = false → DefragSparesSlots c
  | _ => True

structure SameSources (c c' : KvCache) : Prop where
  slots : c'.qnextSlots = c.qnextSlots
  strict : c'.sLPositionStrict = c.sLPositionStrict
  doCopy : c'.doCopy = c.doCopy
  src : ∀ s, s < c.qnextSlots → (c'.cell s).src = (c.cell s).src

theorem SameSources.refl (c : KvCache) : SameSources c c := ⟨rfl, rfl, rfl, fun _ _ => rfl⟩

variable {c c' : KvCache} {env : ContextEnv} {run : SlotRun} {src dst p0 p1 : Int}

theorem SameSources.trans {a b : KvCache} (first : SameSources a b) (second : SameSources b c) :
    SameSources a c where
  slots := second.slots.trans first.slots
  strict := second.strict.trans first.strict
  doCopy := second.doCopy.trans first.doCopy
  src := fun s slot =>
    (second.src s (first.slots.symm ▸ slot)).trans (first.src s slot)

theorem placeTokens_src (env : PlaceEnv) (toks : List BatchToken) (best : Int → Option Int)
    (cells : List KvCell) (fits : toks.length ≤ cells.length) :
    (placeTokens env best cells toks).map KvCell.src = cells.map KvCell.src := by
  induction toks generalizing best cells with
  | nil => simp [placeTokens]
  | cons tok toks ih =>
    cases cells with
    | nil => simp at fits
    | cons cell cells =>
      simp only [placeTokens, map_cons]
      rw [ih _ cells (by simpa using fits)]
      rfl

theorem findSlot_sources {batch : Batch} {embdToken : Int} {meta_ found : Bool} (plain : c.Plain)
    (bounded : c.head ≤ c.size) (searched : kvCacheFindSlot c batch embdToken meta_ = (found, c')) :
    SameSources c c' := by
  cases found with
  | false =>
    obtain ⟨head, _, equal⟩ :=
      kvCacheFindSlot_full c c' batch embdToken meta_ plain.recurrent bounded searched
    subst c'
    exact ⟨rfl, rfl, rfl, fun _ _ => rfl⟩
  | true =>
    obtain ⟨head, fits, _, equal⟩ :=
      kvCacheFindSlot_found c c' batch embdToken meta_ plain.recurrent bounded searched
    subst c'
    refine ⟨rfl, rfl, rfl, fun s _ => getD_congr_map KvCell.src ?_ s⟩
    rw [map_append, placeTokens_src _ _ _ _ (by
      simp only [KvCache.size] at fits
      rw [length_drop]
      omega), ← map_append, take_append_drop]

def ResetsFreed (visit : Nat → KvCell → CellVisit) : Prop :=
  ∀ i cell, (visit i cell).cell.src = cell.src ∨
    ((visit i cell).freed = true ∧ (visit i cell).cell.src = i)

theorem resetSrc_src_cases (q : Bool) (i : Nat) (cell : KvCell) :
    (cell.resetSrc q i).src = cell.src ∨ (cell.resetSrc q i).src = i := by
  cases q
  · exact Or.inl rfl
  · exact Or.inr rfl

theorem seqRmVisit_resets (q : Bool) (seqId p0 p1 : Int) :
    ResetsFreed (seqRmVisit q seqId p0 p1) := by
  intro i cell
  simp only [seqRmVisit]
  split
  · split
    · exact (resetSrc_src_cases q i _).imp (fun kept => kept) fun reset => ⟨rfl, reset⟩
    · exact Or.inl rfl
  · exact Or.inl rfl

theorem seqKeepVisit_resets (q : Bool) (seqId : Int) : ResetsFreed (seqKeepVisit q seqId) := by
  intro i cell
  simp only [seqKeepVisit]
  split
  · exact Or.inl rfl
  · exact (resetSrc_src_cases q i _).imp (fun kept => kept) fun reset => ⟨rfl, reset⟩

theorem seqAddVisit_src (mrope : Bool) (seqId p0 p1 delta : Int) (i : Nat) (cell : KvCell) :
    (seqAddVisit mrope seqId p0 p1 delta i cell).cell.src = cell.src := by
  simp only [seqAddVisit]
  split
  · split <;> rfl
  · rfl

theorem seqDivVisit_src (mrope : Bool) (seqId p0 p1 d : Int) (i : Nat) (cell : KvCell) :
    (seqDivVisit mrope seqId p0 p1 d i cell).cell.src = cell.src := by
  simp only [seqDivVisit]
  split <;> rfl

theorem sweep_src (c : KvCache) (visit : Nat → KvCell → CellVisit)
    (fits : c.qnextSlots ≤ c.size) (resets : ResetsFreed visit)
    (frees : FreesOwnSources c visit) (s : Nat) (slot : s < c.qnextSlots) :
    ((c.sweep visit).cells.getD s {}).src = (c.cell s).src := by
  rw [getD_sweep c visit s (by omega)]
  rcases resets s (c.cell s) with kept | ⟨freed, reset⟩
  · exact kept
  · rw [reset, frees s slot freed]

theorem sweep_src_of_kept (c : KvCache) (visit : Nat → KvCell → CellVisit)
    (fits : c.qnextSlots ≤ c.size) (kept : ∀ i cell, (visit i cell).cell.src = cell.src)
    (s : Nat) (slot : s < c.qnextSlots) :
    ((c.sweep visit).cells.getD s {}).src = (c.cell s).src := by
  rw [getD_sweep c visit s (by omega), kept]

theorem applyShift_sources (env : ContextEnv) (c : KvCache) :
    SameSources c (applyShift env c) := by
  unfold applyShift
  split
  · refine ⟨rfl, rfl, rfl, fun s _ => getD_congr_map KvCell.src ?_ s⟩
    rw [kShift, map_map]
    rfl
  · exact SameSources.refl c

theorem applyDefrag_sources (exact_ : c.Exact) (spares : DefragSparesSlots c)
    (success : applyDefrag env c = some c') : SameSources c c' := by
  unfold applyDefrag at success
  split at success
  · rename_i pending
    obtain ⟨d, frontier, result, state, _⟩ :=
      kvCacheDefragInternal_state exact_.usedExact env.maxMoves
    rw [result, Option.map_some, Option.some.injEq] at success
    subst c'
    refine ⟨rfl, rfl, rfl, fun s slot => ?_⟩
    have kept := state.relocated.kept s ?_ ?_
    · exact congrArg KvCell.src kept
    · cases target : d.dest (kvCacheCellMax c) c.used.toNat s with
      | none => rfl
      | some e =>
        obtain ⟨above, _, _, live, _⟩ := state.relocated.moved s e target
        have below := (spares pending s slot).mpr (by simpa [KvCell.live, KvCache.cell] using live)
        omega
    · intro j target
      obtain ⟨_, _, below, _, hole, _⟩ := state.relocated.moved j s target
      have alive := (spares pending s slot).mp (by omega)
      simp only [KvCell.live, Bool.not_eq_false'] at hole
      rw [KvCache.cell, hole] at alive
      cases alive
  · rw [Option.some.injEq] at success
    exact success ▸ SameSources.refl c

theorem contextStep_sources {op : ContextOp} (plain : c.Plain) (exact_ : c.Exact)
    (fits : c.qnextSlots ≤ c.size) (running : op.Running) (spares : op.SparesSources env c)
    (noCopy : ∀ src dst p0 p1, op ≠ .cache (.seqCp src dst p0 p1)) (noUpdate : op ≠ .update)
    (stepped : contextStep env c op = some c') : SameSources c c' := by
  cases op with
  | update => exact absurd rfl noUpdate
  | readState => exact running.elim
  | defrag =>
    simp only [contextStep, Option.some.injEq] at stepped
    subst c'
    unfold kvCacheDefrag
    split
    · exact SameSources.refl c
    · exact ⟨rfl, rfl, rfl, fun _ _ => rfl⟩
  | cache op =>
    cases op with
    | clear => exact running.elim
    | seqCp src dst p0 p1 => exact absurd rfl (noCopy src dst p0 p1)
    | searchFromStart nTokens =>
      simp only [contextStep, cacheStep, searchFromStart, Option.some.injEq] at stepped
      subst c'
      split <;> exact ⟨rfl, rfl, rfl, fun _ _ => rfl⟩
    | findSlot batch embdToken meta_ =>
      simp only [contextStep, cacheStep] at stepped
      cases searched : kvCacheFindSlot c batch embdToken meta_ with
      | mk found placed =>
        have kept := findSlot_sources plain exact_.head searched
        rw [searched] at stepped
        cases found with
        | false => exact Option.some.inj stepped ▸ kept
        | true =>
          rw [← Option.some.inj stepped]
          exact ⟨kept.slots, kept.strict, kept.doCopy, kept.src⟩
    | seqRm seqId p0 p1 =>
      simp only [contextStep, cacheStep, kvCacheSeqRm_plain c _ _ _ plain, Option.map_some,
        Option.some.injEq] at stepped
      subst c'
      exact ⟨rfl, rfl, rfl, sweep_src c _ fits (seqRmVisit_resets _ _ _ _) spares⟩
    | seqKeep seqId =>
      simp only [contextStep, cacheStep, Option.some.injEq] at stepped
      subst c'
      exact ⟨rfl, rfl, rfl, sweep_src c _ fits (seqKeepVisit_resets _ _) spares⟩
    | seqAdd seqId p0 p1 delta =>
      obtain ⟨-, rfl⟩ | rfl := kvCacheSeqAdd_plain plain stepped
      · exact SameSources.refl _
      · exact ⟨rfl, rfl, rfl, sweep_src_of_kept c _ fits (seqAddVisit_src _ _ _ _ _)⟩
    | seqDiv seqId p0 p1 d =>
      obtain ⟨-, rfl⟩ | rfl := kvCacheSeqDiv_plain plain stepped
      · exact SameSources.refl _
      · exact ⟨rfl, rfl, rfl, sweep_src_of_kept c _ fits (seqDivVisit_src _ _ _ _ _)⟩

/-- The recorded sources are the designated ones, and without a pending copy each slot
is its own. -/
structure SlotRun.Sound (run : SlotRun) : Prop where
  recorded : ∀ s, s < run.cache.qnextSlots → (run.cache.cell s).src = run.designated s
  idle : run.cache.doCopy = false → ∀ s, s < run.cache.qnextSlots → run.designated s = s

theorem SlotRun.Sound.of_sources (sound : run.Sound) (same : SameSources run.cache c') :
    SlotRun.Sound ⟨c', run.designated⟩ where
  recorded := fun s slot => by
    rw [same.slots] at slot
    exact (same.src s slot).trans (sound.recorded s slot)
  idle := fun unset s slot => by
    rw [same.slots] at slot
    rw [same.doCopy] at unset
    exact sound.idle unset s slot

theorem recordsStateSource_slots (records : recordsStateSource c src dst = true) :
    src.toNat < c.qnextSlots ∧ dst.toNat < c.size := by
  simp only [recordsStateSource, KvCache.qnextSeqIdInRange, KvCache.seqIdFits, Bool.and_eq_true,
    decide_eq_true_eq] at records
  omega

theorem seqCp_src (plain : c.Plain) (stepped : kvCacheSeqCp c src dst p0 p1 = some c') (s : Nat) :
    (c'.cell s).src = if recordsStateSource c src dst = true ∧ s = dst.toNat then
      (c.cell src.toNat).src else (c.cell s).src := by
  rw [kvCacheSeqCp_plain c c' src dst p0 p1 plain stepped]
  have copied : ∀ cells : List KvCell, ((cells.map (seqCpCell (copySource c src dst) dst
      (rangeLow p0) (rangeHigh p1))).getD s {}).src = (cells.getD s {}).src := by
    intro cells
    refine getD_congr_map KvCell.src ?_ s
    rw [map_map]
    apply map_congr_left
    intro cell _
    simp only [Function.comp, seqCpCell]
    split <;> rfl
  simp only [KvCache.cell]
  rw [copied]
  unfold recordSource
  by_cases records : recordsStateSource c src dst = true
  · obtain ⟨_, inside⟩ := recordsStateSource_slots records
    rw [if_pos records]
    by_cases here : s = dst.toNat
    · rw [if_pos ⟨records, here⟩, here, getD_modify_self _ _ _ inside]
      simp only [copySource, if_pos records]
      rfl
    · rw [if_neg (fun both => here both.2), getD_modify_ne _ _ _ _ (Ne.symm here)]
  · rw [if_neg records, if_neg (fun both => records both.1)]

theorem seqCp_slots (plain : c.Plain) (stepped : kvCacheSeqCp c src dst p0 p1 = some c') :
    c'.qnextSlots = c.qnextSlots := by
  rw [kvCacheSeqCp_plain c c' src dst p0 p1 plain stepped]
  unfold recordSource
  split <;> rfl

theorem SlotRun.Sound.seqCp (plain : run.cache.Plain) (sound : run.Sound)
    (stepped : kvCacheSeqCp run.cache src dst p0 p1 = some c') :
    SlotRun.Sound ⟨c', if recordsStateSource run.cache src dst then
      Function.update run.designated dst.toNat (run.designated src.toNat)
      else run.designated⟩ := by
  have slots := seqCp_slots plain stepped
  have flag : c'.doCopy = (recordsStateSource run.cache src dst || run.cache.doCopy) := by
    rw [kvCacheSeqCp_plain run.cache c' src dst p0 p1 plain stepped]
    unfold recordSource
    split <;> simp_all
  by_cases records : recordsStateSource run.cache src dst = true
  · simp only [if_pos records]
    constructor
    · intro s slot
      rw [seqCp_src plain stepped s]
      by_cases here : s = dst.toNat
      · rw [if_pos ⟨records, here⟩, here]
        simp only [Function.update_self]
        exact sound.recorded _ (recordsStateSource_slots records).1
      · rw [if_neg (fun both => here both.2)]
        simp only [Function.update_of_ne here]
        exact sound.recorded s (slots ▸ slot)
    · intro unset
      rw [flag, records] at unset
      cases unset
  · simp only [if_neg records]
    rw [Bool.not_eq_true] at records
    constructor
    · intro s slot
      rw [seqCp_src plain stepped s, if_neg (by simp [records])]
      exact sound.recorded s (slots ▸ slot)
    · intro unset s slot
      rw [flag, records] at unset
      exact sound.idle unset s (slots ▸ slot)

theorem DefragSparesSlots.prepared (spares : DefragSparesSlots c) :
    DefragSparesSlots (applyStateCopy (applyShift env c)) := by
  have shifted : DefragSparesSlots (applyShift env c) := by
    unfold applyShift
    split
    · intro pending s slot
      have same : ((kShift c).cell s).seqId = (c.cell s).seqId := by
        refine getD_congr_map KvCell.seqId ?_ s
        rw [kShift, map_map]
        rfl
      rw [KvCell.isEmpty, same]
      exact spares pending s slot
    · exact spares
  generalize applyShift env c = d at shifted
  unfold applyStateCopy
  split
  · intro pending s slot
    have same : ((stateCopy d).cell s).seqId = (d.cell s).seqId := by
      refine getD_congr_map KvCell.seqId ?_ s
      apply ext_getElem <;> simp [stateCopy]
    rw [KvCell.isEmpty, same]
    exact shifted pending s slot
  · exact shifted

theorem stateCopy_src (c : KvCache) (s : Nat) (inside : s < c.size) :
    ((stateCopy c).cell s).src = s := by
  have inside' : s < (stateCopy c).cells.length := by simpa [stateCopy, KvCache.size] using inside
  rw [KvCache.cell, getD_eq_getElem _ _ inside']
  simp [stateCopy]

theorem SlotRun.Sound.update {updated : Bool} (exact_ : run.cache.Exact)
    (fits : run.cache.qnextSlots ≤ run.cache.size)
    (spares : updateRefused env run.cache = false → DefragSparesSlots run.cache)
    (sound : run.Sound) (success : kvCacheUpdate env run.cache = some (updated, c')) :
    SlotRun.Sound ⟨c', if updateCopies env run.cache then fun s => s else run.designated⟩ := by
  have shiftSources := applyShift_sources env run.cache
  have copies : copiesStates (applyShift env run.cache) = copiesStates run.cache := by
    unfold applyShift
    split <;> rfl
  rcases kvCacheUpdate_cases success with ⟨refused, same⟩ | ⟨accepted, moved⟩
  · subst c'
    simpa [updateCopies, refused] using sound
  · have defragged := applyDefrag_sources (applyStateCopy_exact (applyShift_exact env exact_))
      (spares accepted).prepared moved
    simp only [updateCopies, accepted, Bool.not_false, Bool.true_and]
    by_cases pending : copiesStates run.cache = true
    · have copied : applyStateCopy (applyShift env run.cache) =
          stateCopy (applyShift env run.cache) := by
        rw [applyStateCopy, if_pos (copies.trans pending)]
      rw [copied] at defragged
      simp only [if_pos pending]
      refine ⟨fun s slot => ?_, fun _ s _ => rfl⟩
      have slot' : s < (stateCopy (applyShift env run.cache)).qnextSlots := defragged.slots ▸ slot
      have inside : s < (applyShift env run.cache).size := by
        have before : s < run.cache.qnextSlots := shiftSources.slots ▸ slot'
        have size : (applyShift env run.cache).size = run.cache.size := by
          unfold applyShift
          split <;> simp [kShift, KvCache.size]
        omega
      rw [defragged.src s slot', stateCopy_src _ s inside]
    · have kept : applyStateCopy (applyShift env run.cache) = applyShift env run.cache := by
        rw [applyStateCopy, if_neg (copies ▸ pending)]
      rw [kept] at defragged
      simp only [if_neg pending]
      exact sound.of_sources (shiftSources.trans defragged)

theorem kvCacheUpdate_slots {updated : Bool} (success : kvCacheUpdate env c = some (updated, c')) :
    c'.qnextSlots = c.qnextSlots := by
  rcases kvCacheUpdate_cases success with ⟨_, same⟩ | ⟨_, moved⟩
  · rw [same]
  · have prepared : (applyStateCopy (applyShift env c)).qnextSlots = c.qnextSlots := by
      unfold applyStateCopy applyShift
      split <;> split <;> rfl
    rw [← prepared]
    unfold applyDefrag at moved
    split at moved
    · obtain ⟨d, _, equal⟩ := Option.map_eq_some_iff.mp moved
      rw [← equal]
    · rw [Option.some.inj moved]

theorem slotStep_sound {next : SlotRun} {op : ContextOp} (plain : run.cache.Plain)
    (exact_ : run.cache.Exact) (fits : run.cache.qnextSlots ≤ run.cache.size)
    (running : op.Running) (spares : op.SparesSources env run.cache) (sound : run.Sound)
    (stepped : slotStep env run op = some next) :
    next.Sound ∧ next.cache.qnextSlots = run.cache.qnextSlots := by
  obtain ⟨c', cacheStepped, equal⟩ := Option.map_eq_some_iff.mp stepped
  subst next
  by_cases isUpdate : op = .update
  · subst op
    obtain ⟨⟨updated, last⟩, ran, equal⟩ := Option.map_eq_some_iff.mp cacheStepped
    cases equal
    exact ⟨sound.update exact_ fits spares ran, kvCacheUpdate_slots ran⟩
  · by_cases isCopy : ∃ src dst p0 p1, op = .cache (.seqCp src dst p0 p1)
    · obtain ⟨src, dst, p0, p1, equal⟩ := isCopy
      subst op
      exact ⟨sound.seqCp plain cacheStepped, seqCp_slots plain cacheStepped⟩
    · have noCopy : ∀ src dst p0 p1, op ≠ .cache (.seqCp src dst p0 p1) :=
        fun src dst p0 p1 equal => isCopy ⟨src, dst, p0, p1, equal⟩
      have same := contextStep_sources plain exact_ fits running spares noCopy isUpdate cacheStepped
      have unchanged : designatedAfter env run.cache run.designated op = run.designated := by
        cases op with
        | update => exact absurd rfl isUpdate
        | cache op =>
          cases op with
          | seqCp src dst p0 p1 => exact absurd rfl (noCopy src dst p0 p1)
          | _ => rfl
        | _ => rfl
      rw [unchanged]
      exact ⟨sound.of_sources same, same.slots⟩

theorem kvCacheInit_slots_le (cfg : KvConfig) (kvSize : Nat) :
    (kvCacheInit cfg kvSize).qnextSlots ≤ (kvCacheInit cfg kvSize).size := by
  simp only [kvCacheInit, KvCache.size, length_map, length_range, qwen3nextStateSlots]
  split <;> omega

theorem kvCacheInit_sound (cfg : KvConfig) (kvSize : Nat) (hybrid : cfg.hybrid = true) :
    SlotRun.Sound ⟨kvCacheInit cfg kvSize, fun s => s⟩ := by
  refine ⟨fun s slot => ?_, fun _ s _ => rfl⟩
  have inside : s < (kvCacheInit cfg kvSize).cells.length :=
    lt_of_lt_of_le slot (kvCacheInit_slots_le cfg kvSize)
  rw [KvCache.cell, getD_eq_getElem _ _ inside]
  simp [kvCacheInit, hybrid]

/-- Along every run whose operations spare the recorded sources, each slot records the
source that the copies since the last update designate, and its own index when no
copy is pending. -/
theorem reachable_sources_designated (env : ContextEnv) (cfg : KvConfig) (kvSize : Nat)
    (transformer : cfg.recurrent = false) (hybrid : cfg.hybrid = true) (run : SlotRun)
    (reached : Reaches (slotStep env)
      (fun run op => op.Valid ∧ op.Running ∧ op.SparesSources env run.cache)
      ⟨kvCacheInit cfg kvSize, fun s => s⟩ run) :
    ∀ s, s < run.cache.qnextSlots → (run.cache.cell s).src = run.designated s ∧
      (run.cache.doCopy = false → (run.cache.cell s).src = s) := by
  have holds : run.cache.Exact ∧ run.cache.Plain ∧ run.cache.qnextSlots ≤ run.cache.size ∧
      run.Sound := by
    refine reached.invariant (fun run => run.cache.Exact ∧ run.cache.Plain ∧
      run.cache.qnextSlots ≤ run.cache.size ∧ run.Sound) ?_ ?_
    · exact ⟨kvCacheInit_exact cfg kvSize, kvCacheInit_plain cfg kvSize transformer,
        kvCacheInit_slots_le cfg kvSize, kvCacheInit_sound cfg kvSize hybrid⟩
    · rintro state op next ⟨exact_, plain, fits, sound⟩ ⟨valid, running, spares⟩ stepped
      obtain ⟨nextSound, slots⟩ := slotStep_sound plain exact_ fits running spares sound stepped
      obtain ⟨c', cacheStepped, equal⟩ := Option.map_eq_some_iff.mp stepped
      subst next
      obtain ⟨nextExact, nextPlain⟩ :=
        contextStep_exact env state.cache c' op plain exact_ valid cacheStepped
      have size := contextStep_size plain exact_ valid cacheStepped
      refine ⟨nextExact, nextPlain, ?_, nextSound⟩
      simp only at slots ⊢
      omega
  intro s slot
  have recorded := holds.2.2.2.recorded s slot
  exact ⟨recorded, fun unset => recorded.trans (holds.2.2.2.idle unset s slot)⟩

instance (c : KvCache) (visit : Nat → KvCell → CellVisit) : Decidable (FreesOwnSources c visit) :=
  inferInstanceAs (Decidable (∀ s, s < c.qnextSlots →
    (visit s (c.cell s)).freed = true → (c.cell s).src = s))

instance (c : KvCache) : Decidable (DefragSparesSlots c) :=
  inferInstanceAs (Decidable (c.doDefrag = true → ∀ s, s < c.qnextSlots →
    ((s : Int) < c.used ↔ (c.cell s).isEmpty = false)))

instance (env : ContextEnv) (c : KvCache) : (op : ContextOp) → Decidable (op.SparesSources env c)
  | .cache (.seqRm seqId p0 p1) => inferInstanceAs (Decidable (FreesOwnSources c
      (seqRmVisit c.hasQnextStateStorage seqId (rangeLow p0) (rangeHigh p1))))
  | .cache (.seqKeep seqId) => inferInstanceAs (Decidable (FreesOwnSources c
      (seqKeepVisit c.hasQnextStateStorage seqId)))
  | .update => inferInstanceAs (Decidable (updateRefused env c = false → DefragSparesSlots c))
  | .cache (.searchFromStart _) | .cache (.findSlot ..) | .cache (.seqCp ..)
  | .cache (.seqAdd ..) | .cache (.seqDiv ..) | .cache .clear | .defrag | .readState .. =>
    isTrue trivial

def slotCopyOps : List ContextOp :=
  [.cache (.findSlot { tokens := [⟨10, 0, [0], 0, 0, 0⟩, ⟨20, 0, [2], 0, 0, 0⟩] } tokenNull true),
   .cache (.seqCp 0 1 (-1) (-1))]

def slotStart : SlotRun := ⟨kvCacheInit hybridConfig 4, fun s => s⟩

theorem slotCopy_runs : (runChecked (slotStep {})
    (fun run op => op.Valid ∧ op.Running ∧ op.SparesSources {} run.cache) slotStart
    slotCopyOps).isSome = true := by decide +kernel

theorem reachable_sources_designated_at_slotCopy :
    ∃ run, Reaches (slotStep {})
        (fun run op => op.Valid ∧ op.Running ∧ op.SparesSources {} run.cache) slotStart run ∧
      ∀ s, s < run.cache.qnextSlots → (run.cache.cell s).src = run.designated s ∧
        (run.cache.doCopy = false → (run.cache.cell s).src = s) := by
  have reached := reaches_of_runChecked slotCopyOps slotStart _
    (Option.some_get slotCopy_runs).symm
  exact ⟨_, reached, reachable_sources_designated {} hybridConfig 4 rfl rfl _ reached⟩

theorem slotLoss_runs : (runChecked (slotStep {}) (fun _ op => op.Valid ∧ op.Running) slotStart
    (slotCopyOps ++ [.cache (.seqRm 2 (-1) (-1))])).isSome = true := by decide +kernel

def slotLost : SlotRun := (runChecked (slotStep {}) (fun _ op => op.Valid ∧ op.Running) slotStart
  (slotCopyOps ++ [.cache (.seqRm 2 (-1) (-1))])).get slotLoss_runs

/-- Removing sequence 2 frees the token cell with index 1 and with it the record that
slot 1 copies slot 0. -/
theorem seqRm_loses_source :
    ¬ ∀ (env : ContextEnv) (cfg : KvConfig) (kvSize : Nat), cfg.recurrent = false →
      cfg.hybrid = true → ∀ run : SlotRun,
      Reaches (slotStep env) (fun _ op => op.Valid ∧ op.Running)
        ⟨kvCacheInit cfg kvSize, fun s => s⟩ run →
      ∀ s, s < run.cache.qnextSlots → (run.cache.cell s).src = run.designated s ∧
        (run.cache.doCopy = false → (run.cache.cell s).src = s) := by
  intro claimed
  have reached : Reaches (slotStep {}) (fun _ op => op.Valid ∧ op.Running) slotStart slotLost :=
    reaches_of_runChecked _ slotStart _ (Option.some_get slotLoss_runs).symm
  have kept := (claimed {} hybridConfig 4 rfl rfl slotLost reached 1 (by decide +kernel)).1
  have lost : (slotLost.cache.cell 1).src ≠ slotLost.designated 1 := by decide +kernel
  exact lost kept

end LlamaCpp.Kv
