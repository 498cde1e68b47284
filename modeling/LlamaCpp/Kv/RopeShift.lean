import LlamaCpp.Kv.ContextRuns

/-!
# Rope positions and pending shifts

A cell records in `delta` how far its position has moved from the position its K row
is rotated to.  `RopeRun` carries that rope position along: a placed or restored row
has its batch position, the K-shift adds `delta`, a defrag pass moves rows with their
cells.  Position, rope position and `delta` agree as long as no row is placed in a
cell that still carries the `delta` of its previous token.
-/

set_option autoImplicit false

namespace LlamaCpp.Kv

open LlamaCpp.Lib List Bool

structure RopeRun where
  cache : KvCache
  rope : Nat → Int

/-- The rows from `head` on are rotated to the given positions. -/
def ropePlaced (rope : Nat → Int) (head : Nat) (positions : List Int) (i : Nat) : Int :=
  if head ≤ i ∧ i < head + positions.length then positions.getD (i - head) 0 else rope i

/-- The rows of the moved cells are where `ids` sends them. -/
def ropeMoved (rope : Nat → Int) (ids : List Nat) (k : Nat) : Int :=
  match (List.range ids.length).find? fun i => decide (Moves ids i ∧ ids.getD i 0 = k) with
  | some i => rope i
  | none => rope k

def ropeShifted (env : ContextEnv) (c : KvCache) (rope : Nat → Int) (i : Nat) : Int :=
  if shiftPending env c then rope i + (c.cell i).delta else rope i

def ropeUpdated (env : ContextEnv) (c : KvCache) (rope : Nat → Int) : Nat → Int :=
  if updateRefused env c then rope
  else
    let ready := applyStateCopy (applyShift env c)
    match kvCacheDefragInternal ready env.maxMoves with
    | some s => if ready.doDefrag then ropeMoved (ropeShifted env c rope) s.ids
        else ropeShifted env c rope
    | none => ropeShifted env c rope

def ropeAfter (env : ContextEnv) (c : KvCache) (rope : Nat → Int) : ContextOp → Nat → Int
  | .cache (.findSlot batch embdToken meta_) =>
    match kvCacheFindSlot c batch embdToken meta_ with
    | (true, placed) => ropePlaced rope placed.head (batch.tokens.map BatchToken.pos)
    | (false, _) => rope
  | .update => ropeUpdated env c rope
  | .readState destSeqId saved _ =>
    if destSeqId = -1 then
      if (readAllMeta env c saved).1 then ropePlaced rope 0 (saved.map SavedCell.pos) else rope
    else
      match readSeqMeta env c destSeqId saved with
      | some (true, placed) => ropePlaced rope placed.head (saved.map SavedCell.pos)
      | _ => rope
  | _ => rope

def ropeStep (env : ContextEnv) (run : RopeRun) (op : ContextOp) : Option RopeRun :=
  (contextStep env run.cache op).map fun c =>
    { cache := c, rope := ropeAfter env run.cache run.rope op }

def filledCells (env : ContextEnv) (c : KvCache) : ContextOp → List Nat
  | .cache (.findSlot batch embdToken meta_) =>
    match kvCacheFindSlot c batch embdToken meta_ with
    | (true, placed) => List.range' placed.head batch.tokens.length
    | (false, _) => []
  | .readState destSeqId saved _ =>
    if destSeqId = -1 then
      if (readAllMeta env c saved).1 then List.range' 0 saved.length else []
    else
      match readSeqMeta env c destSeqId saved with
      | some (true, placed) => List.range' placed.head saved.length
      | _ => []
  | _ => []

/-- Rows are placed and restored only into cells that carry no `delta`. -/
def ContextOp.FillsFresh (env : ContextEnv) (c : KvCache) (op : ContextOp) : Prop :=
  ∀ i ∈ filledCells env c op, (c.cell i).delta = 0

instance (env : ContextEnv) (c : KvCache) (op : ContextOp) : Decidable (op.FillsFresh env c) :=
  inferInstanceAs (Decidable (∀ i ∈ filledCells env c op, (c.cell i).delta = 0))

/-- Each non-empty cell is `delta` away from its rope position, and without a pending
shift no cell carries a `delta`. -/
structure RopeRun.Sound (run : RopeRun) : Prop where
  aligned : ∀ i, (run.cache.cell i).isEmpty = false →
    run.rope i + (run.cache.cell i).delta = (run.cache.cell i).pos
  settled : run.cache.hasShift = false → ∀ i, (run.cache.cell i).delta = 0

/-- Non-empty cells keep the offset between position and `delta`, and without a pending
shift every `delta` is as before. -/
structure Carried (c c' : KvCache) : Prop where
  offset : ∀ i, (c'.cell i).isEmpty = false → (c.cell i).isEmpty = false ∧
    (c'.cell i).pos - (c'.cell i).delta = (c.cell i).pos - (c.cell i).delta
  settled : c'.hasShift = false → c.hasShift = false ∧
    ∀ i, (c'.cell i).delta = (c.cell i).delta

variable {c c' : KvCache} {rope : Nat → Int} {p0 p1 : Int} {env : ContextEnv}
  {saved : List SavedCell}

theorem RopeRun.Sound.of_carried (sound : RopeRun.Sound ⟨c, rope⟩) (carried : Carried c c') :
    RopeRun.Sound ⟨c', rope⟩ where
  aligned := fun i alive => by
    obtain ⟨before, same⟩ := carried.offset i alive
    have aligned := sound.aligned i before
    simp only at aligned ⊢
    omega
  settled := fun unset i => by
    obtain ⟨before, same⟩ := carried.settled unset
    exact (same i).trans (sound.settled before i)

def CarriesVisit (visit : Nat → KvCell → CellVisit) : Prop :=
  ∀ i cell, ((visit i cell).cell.isEmpty = false → cell.isEmpty = false ∧
      (visit i cell).cell.pos - (visit i cell).cell.delta = cell.pos - cell.delta) ∧
    ((visit i cell).shifted = false → (visit i cell).cell.delta = cell.delta)

theorem sweepFrom_hasShift (visit : Nat → KvCell → CellVisit) (i : Nat) (cells : List KvCell)
    (used : Int) (newHead : Option Nat) (hasShift : Bool)
    (unset : (sweepFrom visit i cells used newHead hasShift).hasShift = false) :
    hasShift = false ∧ ∀ j, (inside : j < cells.length) →
      (visit (i + j) cells[j]).shifted = false := by
  induction cells generalizing i used newHead hasShift with
  | nil =>
    refine ⟨unset, ?_⟩
    intro j impossible
    simp at impossible
  | cons cell rest ih =>
    obtain ⟨here, later⟩ := ih _ _ _ _ unset
    rw [or_eq_false_iff] at here
    refine ⟨here.1, ?_⟩
    intro j inside
    cases j with
    | zero => exact here.2
    | succ j =>
      have shifted := later j (by simpa using inside)
      rw [add_right_comm] at shifted
      exact shifted

theorem sweep_hasShift (c : KvCache) (visit : Nat → KvCell → CellVisit)
    (unset : (c.sweep visit).hasShift = false) :
    c.hasShift = false ∧ ∀ i, i < c.size → (visit i (c.cell i)).shifted = false := by
  obtain ⟨before, still⟩ := sweepFrom_hasShift visit 0 c.cells _ _ _ unset
  refine ⟨before, fun i inside => ?_⟩
  have shifted := still i inside
  rw [zero_add] at shifted
  rw [KvCache.cell, getD_eq_getElem _ _ inside]
  exact shifted

theorem sweep_carried (c c' : KvCache) (visit : Nat → KvCell → CellVisit)
    (carries : CarriesVisit visit) (cells : c'.cells = (c.sweep visit).cells)
    (flag : c'.hasShift = false → c.hasShift = false ∧
      ∀ i, i < c.size → (visit i (c.cell i)).shifted = false) : Carried c c' := by
  have inside : ∀ i, i < c.size → c'.cell i = (visit i (c.cell i)).cell := by
    intro i bounded
    rw [KvCache.cell, cells, getD_sweep c visit i bounded]
  have outside : ∀ i, ¬ i < c.size → c'.cell i = {} ∧ c.cell i = {} := by
    intro i beyond
    have length : c'.cells.length = c.size := by rw [cells, sweep_size]
    exact ⟨getD_eq_default _ _ (by omega), getD_eq_default _ _ (not_lt.mp beyond)⟩
  constructor
  · intro i alive
    by_cases bounded : i < c.size
    · rw [inside i bounded] at alive ⊢
      exact (carries i _).1 alive
    · rw [(outside i bounded).1] at alive
      cases alive
  · intro unset
    obtain ⟨before, still⟩ := flag unset
    refine ⟨before, fun i => ?_⟩
    by_cases bounded : i < c.size
    · rw [inside i bounded]
      exact (carries i _).2 (still i bounded)
    · rw [(outside i bounded).1, (outside i bounded).2]

theorem seqRmVisit_carries (q : Bool) (seqId p0 p1 : Int) :
    CarriesVisit (seqRmVisit q seqId p0 p1) := by
  intro i cell
  simp only [seqRmVisit]
  split
  · split
    · refine ⟨fun alive => ?_, fun _ => KvCell.resetSrc_delta q i _⟩
      rw [KvCell.resetSrc_isEmpty] at alive
      cases alive
    · refine ⟨fun alive => ⟨?_, rfl⟩, fun _ => rfl⟩
      rw [KvCell.isEmpty_false_iff] at alive ⊢
      simp only [KvCell.dropSeqId] at alive
      split at alive
      · exact absurd alive Finset.not_nonempty_empty
      · exact alive.mono (Finset.erase_subset _ _)
  · exact ⟨fun alive => ⟨alive, rfl⟩, fun _ => rfl⟩

theorem seqRmVisit_shifted (q : Bool) (seqId p0 p1 : Int) (i : Nat) (cell : KvCell) :
    (seqRmVisit q seqId p0 p1 i cell).shifted = false := by
  simp only [seqRmVisit]
  split
  · split <;> rfl
  · rfl

theorem seqKeepVisit_carries (q : Bool) (seqId : Int) : CarriesVisit (seqKeepVisit q seqId) := by
  intro i cell
  simp only [seqKeepVisit]
  split
  · rename_i member
    rw [KvCell.hasSeqId_iff] at member
    exact ⟨fun _ => ⟨(KvCell.isEmpty_false_iff cell).mpr ⟨_, member⟩, rfl⟩, fun _ => rfl⟩
  · refine ⟨fun alive => ?_, fun _ => KvCell.resetSrc_delta q i _⟩
    rw [KvCell.resetSrc_isEmpty] at alive
    cases alive

theorem seqKeepVisit_shifted (q : Bool) (seqId : Int) (i : Nat) (cell : KvCell) :
    (seqKeepVisit q seqId i cell).shifted = false := by
  simp only [seqKeepVisit]
  split <;> rfl

theorem seqAddVisit_carries (mrope : Bool) (seqId p0 p1 delta : Int) :
    CarriesVisit (seqAddVisit mrope seqId p0 p1 delta) := by
  intro i cell
  simp only [seqAddVisit]
  split
  · split
    · refine ⟨fun alive => ?_, fun impossible => by cases impossible⟩
      cases alive
    · refine ⟨fun alive => ⟨alive, ?_⟩, fun impossible => by cases impossible⟩
      simp only [KvCell.addDelta]
      omega
  · exact ⟨fun alive => ⟨alive, rfl⟩, fun _ => rfl⟩

theorem seqDivVisit_carries (mrope : Bool) (seqId p0 p1 d : Int) :
    CarriesVisit (seqDivVisit mrope seqId p0 p1 d) := by
  intro i cell
  simp only [seqDivVisit]
  split
  · refine ⟨fun alive => ⟨alive, ?_⟩, fun impossible => by cases impossible⟩
    simp only [KvCell.divide]
    omega
  · exact ⟨fun alive => ⟨alive, rfl⟩, fun _ => rfl⟩

theorem carried_of_same (flag : c'.hasShift = c.hasShift)
    (pos : ∀ i, (c'.cell i).pos = (c.cell i).pos)
    (alive : ∀ i, (c'.cell i).isEmpty = false → (c.cell i).isEmpty = false)
    (delta : ∀ i, (c'.cell i).delta = (c.cell i).delta) : Carried c c' where
  offset := fun i nonempty => ⟨alive i nonempty, by rw [pos, delta]⟩
  settled := fun unset => ⟨flag ▸ unset, delta⟩

theorem seqCp_carried {src dst : Int} (plain : c.Plain)
    (stepped : kvCacheSeqCp c src dst p0 p1 = some c') : Carried c c' := by
  have equal := kvCacheSeqCp_plain c c' src dst p0 p1 plain stepped
  have same : ∀ {β : Type} (g : KvCell → β), (∀ cell v, g { cell with src := v } = g cell) →
      (∀ src' cell, g (seqCpCell src' dst (rangeLow p0) (rangeHigh p1) cell) = g cell) →
      ∀ i, g (c'.cell i) = g (c.cell i) := by
    intro β g source copied i
    refine getD_congr_map g ?_ i
    rw [equal, ← map_recordSource_cells c src dst g source, map_map]
    exact map_congr_left fun cell _ => copied _ cell
  refine carried_of_same ?_ ?_ ?_ ?_
  · rw [equal]
    unfold recordSource
    split <;> rfl
  · refine same KvCell.pos (fun _ _ => rfl) fun src' cell => ?_
    unfold seqCpCell
    split <;> rfl
  · intro i alive
    rw [← alive]
    refine (same KvCell.isEmpty (fun _ _ => rfl) (fun src' cell => ?_) i).symm
    unfold seqCpCell
    split
    · rename_i hit
      rw [and_eq_true, KvCell.hasSeqId_iff] at hit
      rw [(KvCell.isEmpty_false_iff cell).mpr ⟨_, hit.1⟩, KvCell.isEmpty_false_iff]
      exact Finset.insert_nonempty _ _
    · rfl
  · refine same KvCell.delta (fun _ _ => rfl) fun src' cell => ?_
    unfold seqCpCell
    split <;> rfl

theorem kvCacheClear_cell (c : KvCache) (i : Nat) :
    ((kvCacheClear c).cell i).isEmpty = true ∧
      ((kvCacheClear c).cell i).delta = (c.cell i).delta := by
  constructor
  · by_cases inside : i < (kvCacheClear c).cells.length
    · rw [KvCache.cell, getD_eq_getElem _ _ inside]
      exact (kvCacheClear_empty c _ (getElem_mem inside)).2
    · rw [KvCache.cell, getD_eq_default _ _ (not_lt.mp inside)]
      rfl
  · refine getD_congr_map KvCell.delta ?_ i
    apply ext_getElem <;> simp [kvCacheClear, KvCell.release]

theorem clear_carried (c : KvCache) : Carried c (kvCacheClear c) where
  offset := fun i alive => by
    rw [(kvCacheClear_cell c i).1] at alive
    cases alive
  settled := fun unset => ⟨unset, fun i => (kvCacheClear_cell c i).2⟩

theorem cacheStep_carried (op : CacheOp) (plain : c.Plain)
    (noSearch : ∀ batch embdToken meta_, op ≠ .findSlot batch embdToken meta_)
    (stepped : cacheStep c op = some c') : Carried c c' := by
  cases op with
  | findSlot batch embdToken meta_ => exact absurd rfl (noSearch batch embdToken meta_)
  | searchFromStart nTokens =>
    simp only [cacheStep, searchFromStart, Option.some.injEq] at stepped
    subst c'
    split <;> exact carried_of_same rfl (fun _ => rfl) (fun _ alive => alive) (fun _ => rfl)
  | seqRm seqId p0 p1 =>
    simp only [cacheStep, kvCacheSeqRm_plain c _ _ _ plain, Option.map_some,
      Option.some.injEq] at stepped
    subst c'
    exact sweep_carried c _ _ (seqRmVisit_carries _ _ _ _) rfl
      fun unset => ⟨unset, fun i _ => seqRmVisit_shifted _ _ _ _ i _⟩
  | seqCp src dst p0 p1 => exact seqCp_carried plain stepped
  | seqKeep seqId =>
    simp only [cacheStep, Option.some.injEq] at stepped
    subst c'
    exact sweep_carried c _ _ (seqKeepVisit_carries _ _) rfl
      fun unset => ⟨unset, fun i _ => seqKeepVisit_shifted _ _ i _⟩
  | seqAdd seqId p0 p1 delta =>
    obtain ⟨-, rfl⟩ | rfl := kvCacheSeqAdd_plain plain stepped
    · exact carried_of_same rfl (fun _ => rfl) (fun _ alive => alive) (fun _ => rfl)
    · exact sweep_carried c _ _ (seqAddVisit_carries _ _ _ _ _) rfl (sweep_hasShift c _)
  | seqDiv seqId p0 p1 d =>
    obtain ⟨-, rfl⟩ | rfl := kvCacheSeqDiv_plain plain stepped
    · exact carried_of_same rfl (fun _ => rfl) (fun _ alive => alive) (fun _ => rfl)
    · exact sweep_carried c _ _ (seqDivVisit_carries _ _ _ _ _) rfl (sweep_hasShift c _)
  | clear =>
    rw [← Option.some.inj stepped]
    exact clear_carried c

theorem ropePlaced_inside (rope : Nat → Int) (head : Nat) (positions : List Int) (j : Nat)
    (inside : j < positions.length) :
    ropePlaced rope head positions (head + j) = positions.getD j 0 := by
  rw [ropePlaced, if_pos ⟨Nat.le_add_right _ _, by omega⟩, Nat.add_sub_cancel_left]

theorem ropePlaced_outside (rope : Nat → Int) (head : Nat) (positions : List Int) (i : Nat)
    (outside : i < head ∨ head + positions.length ≤ i) :
    ropePlaced rope head positions i = rope i := by
  rw [ropePlaced, if_neg (by omega)]

/-- A search that fills cells without `delta` places rows where their positions say. -/
theorem RopeRun.Sound.findSlot {batch : Batch} {embdToken : Int} {meta_ : Bool} (plain : c.Plain)
    (bounded : c.head ≤ c.size) (sound : RopeRun.Sound ⟨c, rope⟩)
    (found : kvCacheFindSlot c batch embdToken meta_ = (true, c'))
    (fresh : ∀ j, j < batch.tokens.length → (c.cell (c'.head + j)).delta = 0) :
    RopeRun.Sound ⟨c', ropePlaced rope c'.head (batch.tokens.map BatchToken.pos)⟩ := by
  obtain ⟨fits, flag, placed, kept⟩ :=
    kvCacheFindSlot_cell c c' batch embdToken meta_ plain.recurrent bounded found
  have cases : ∀ i, (∃ j, j < batch.tokens.length ∧ i = c'.head + j) ∨
      (i < c'.head ∨ c'.head + batch.tokens.length ≤ i) := by
    intro i
    by_cases low : c'.head ≤ i ∧ i < c'.head + batch.tokens.length
    · exact Or.inl ⟨i - c'.head, by omega, by omega⟩
    · omega
  have delta : ∀ i, (c'.cell i).delta = (c.cell i).delta := by
    intro i
    rcases cases i with ⟨j, inside, equal⟩ | outside
    · obtain ⟨best, cell⟩ := placed j inside
      rw [equal, cell]
      rfl
    · rw [kept i outside]
  constructor
  · intro i alive
    simp only at ⊢
    rcases cases i with ⟨j, inside, equal⟩ | outside
    · obtain ⟨best, cell⟩ := placed j inside
      subst i
      rw [ropePlaced_inside _ _ _ _ (by simpa using inside), delta, fresh j inside, cell,
        getD_eq_getElem _ _ (by simpa using inside)]
      simp [placeCell]
    · rw [ropePlaced_outside _ _ _ _ (by simpa using outside), kept i outside]
      rw [kept i outside] at alive
      exact sound.aligned i alive
  · intro unset i
    rw [delta]
    exact sound.settled (flag ▸ unset) i

theorem findSlot_full_carried {batch : Batch} {embdToken : Int} {meta_ : Bool} (plain : c.Plain)
    (bounded : c.head ≤ c.size) (full : kvCacheFindSlot c batch embdToken meta_ = (false, c')) :
    Carried c c' := by
  obtain ⟨head, _, equal⟩ :=
    kvCacheFindSlot_full c c' batch embdToken meta_ plain.recurrent bounded full
  subst c'
  exact carried_of_same rfl (fun _ => rfl) (fun _ alive => alive) (fun _ => rfl)

theorem RopeRun.Sound.applyShift (env : ContextEnv) (sound : RopeRun.Sound ⟨c, rope⟩) :
    RopeRun.Sound ⟨applyShift env c, ropeShifted env c rope⟩ := by
  by_cases pending : shiftPending env c = true
  · have cell : ∀ i, (kShift c).cell i = (c.cell i).applyShift := by
      intro i
      exact getD_map c.cells {} KvCell.applyShift
    have shifted : Kv.applyShift env c = kShift c := by rw [Kv.applyShift, if_pos pending]
    rw [shifted]
    constructor
    · intro i alive
      simp only [ropeShifted, if_pos pending] at ⊢
      rw [cell] at alive ⊢
      have aligned := sound.aligned i alive
      simp only [KvCell.applyShift] at aligned ⊢
      omega
    · intro _ i
      simp only [cell]
      rfl
  · have kept : Kv.applyShift env c = c := by rw [Kv.applyShift, if_neg pending]
    have same : ropeShifted env c rope = rope := by
      funext i
      rw [ropeShifted, if_neg pending]
    rw [kept, same]
    exact sound

theorem applyStateCopy_carried (c : KvCache) : Carried c (applyStateCopy c) := by
  unfold applyStateCopy
  split
  · have same : ∀ {β : Type} (g : KvCell → β), (∀ cell v, g { cell with src := v } = g cell) →
        ∀ i, g ((stateCopy c).cell i) = g (c.cell i) := by
      intro β g source i
      refine getD_congr_map g ?_ i
      apply ext_getElem
      · simp [stateCopy]
      · intro j _ _
        simp [stateCopy, source]
    exact carried_of_same rfl (same KvCell.pos fun _ _ => rfl)
      (fun i alive => (same KvCell.isEmpty (fun _ _ => rfl) i).symm.trans alive)
      (same KvCell.delta fun _ _ => rfl)
  · exact carried_of_same rfl (fun _ => rfl) (fun _ alive => alive) (fun _ => rfl)

theorem ropeMoved_newIndex {s : DefragState} {frontier : Nat}
    (state : Defragged c s frontier) (rope : Nat → Int) (i : Nat)
    (alive : (c.cell i).isEmpty = false) : ropeMoved rope s.ids (newIndex s.ids i) = rope i := by
  unfold ropeMoved
  split
  · rename_i j found
    have hit := List.find?_some found
    rw [decide_eq_true_eq] at hit
    obtain ⟨moves, goes⟩ := hit
    have target := (state.moves_iff j _).mpr ⟨moves, goes⟩
    by_cases iMoves : Moves s.ids i
    · rw [newIndex, if_pos iMoves] at target
      have own := (state.moves_iff i _).mpr ⟨iMoves, rfl⟩
      rw [state.relocated.injective j i _ target own]
    · rw [newIndex, if_neg iMoves] at target
      have hole := (state.relocated.moved j i target).2.2.2.2.1
      simp only [KvCell.live, not_eq_false'] at hole
      rw [KvCache.cell, hole] at alive
      cases alive
  · rename_i absent
    by_cases iMoves : Moves s.ids i
    · rw [List.find?_eq_none] at absent
      have := absent i (mem_range.mpr iMoves.1)
      rw [newIndex, if_pos iMoves] at this
      exact absurd (decide_eq_true ⟨iMoves, rfl⟩) this
    · rw [newIndex, if_neg iMoves]

theorem RopeRun.Sound.update {updated : Bool} (exact_ : c.Exact) (sound : RopeRun.Sound ⟨c, rope⟩)
    (success : kvCacheUpdate env c = some (updated, c')) :
    RopeRun.Sound ⟨c', ropeUpdated env c rope⟩ := by
  rcases kvCacheUpdate_cases success with ⟨refused, same⟩ | ⟨accepted, moved⟩
  · subst c'
    rw [ropeUpdated, if_pos refused]
    exact sound
  · have ready := (sound.applyShift env).of_carried
      (applyStateCopy_carried (Kv.applyShift env c))
    have readyExact := applyStateCopy_exact (applyShift_exact env exact_)
    rw [ropeUpdated, if_neg (by simp [accepted])]
    simp only
    generalize ropeShifted env c rope = rope' at ready
    obtain ⟨s, frontier, result, state, _⟩ :=
      kvCacheDefragInternal_state readyExact.usedExact env.maxMoves
    unfold applyDefrag at moved
    rw [result] at moved ⊢
    simp only
    split at moved
    · rename_i pending
      rw [Option.map_some, Option.some.injEq] at moved
      subst c'
      rw [if_pos pending]
      constructor
      · intro k alive
        obtain ⟨i, before, index⟩ := state.origin k alive
        have content := state.cell_newIndex i before
        rw [index] at content
        have rows := ropeMoved_newIndex state rope' i before
        rw [index] at rows
        have aligned := ready.aligned i before
        change ropeMoved rope' s.ids k + (s.cell k).delta = (s.cell k).pos
        rw [rows, content]
        exact aligned
      · intro unset k
        change (s.cell k).delta = 0
        rcases state.cell_cases k with blank | ⟨i, old⟩
        · rw [blank]
        · rw [old]
          exact ready.settled unset i
    · rename_i idle
      rw [if_neg idle, ← Option.some.inj moved]
      exact ready

/-- Removing a sequence leaves every `delta` behind. -/
theorem seqRm_delta {removed : Bool} {seqId : Int} (plain : c.Plain)
    (success : kvCacheSeqRm c seqId p0 p1 = some (removed, c')) (i : Nat) :
    (c'.cell i).delta = (c.cell i).delta := by
  rw [kvCacheSeqRm_plain c _ _ _ plain] at success
  cases success
  refine getD_congr_map KvCell.delta ?_ i
  apply ext_getElem
  · simp [KvCache.sweep_cells]
  · intro j _ _
    simp only [getElem_map, KvCache.sweep_cells, getElem_mapIdx]
    exact (seqRmVisit_carries _ _ _ _ j _).2 (seqRmVisit_shifted _ _ _ _ j _)

theorem seqRm_carried {removed : Bool} {seqId : Int} (plain : c.Plain)
    (success : kvCacheSeqRm c seqId p0 p1 = some (removed, c')) : Carried c c' :=
  cacheStep_carried (.seqRm seqId p0 p1) plain
    (fun _ _ _ different => by cases different) (by simp [cacheStep, success])

theorem restoreQsa_carried (fits : c.head + saved.length ≤ c.size) : Carried c { c with
      cells := c.cells.take c.head ++
        overwriteCells (SavedCell.restoreQsa c.qsa) (c.cells.drop c.head) saved } := by
  have same : ∀ {β : Type} (g : KvCell → β), (∀ q s cell, g (SavedCell.restoreQsa q s cell) =
      g cell) → ∀ i, g ((c.cells.take c.head ++ overwriteCells (SavedCell.restoreQsa c.qsa)
        (c.cells.drop c.head) saved).getD i {}) = g (c.cells.getD i {}) := by
    intro β g kept i
    refine getD_congr_map g ?_ i
    rw [map_append, overwriteCells_map _ _ (kept c.qsa) _ _ (by
      simp only [KvCache.size] at fits
      rw [length_drop]
      omega), ← map_append, take_append_drop]
  refine carried_of_same rfl ?_ ?_ ?_
  · exact same KvCell.pos fun q _ _ => by cases q <;> rfl
  · intro i alive
    rw [← alive]
    exact (same KvCell.isEmpty (fun q _ _ => by cases q <;> rfl) i).symm
  · exact same KvCell.delta fun q _ _ => by cases q <;> rfl

theorem RopeRun.Sound.readSeqMeta {restored : Bool} {destSeqId : Int} (plain : c.Plain)
    (exact_ : c.Exact) (sound : RopeRun.Sound ⟨c, rope⟩)
    (success : readSeqMeta env c destSeqId saved = some (restored, c'))
    (fresh : restored = true → ∀ j, j < saved.length → (c.cell (c'.head + j)).delta = 0) :
    RopeRun.Sound ⟨c', if restored then ropePlaced rope c'.head (saved.map SavedCell.pos)
      else rope⟩ := by
  unfold Kv.readSeqMeta at success
  split at success
  · cases success
    exact sound
  · split at success
    · cases success
    · rename_i removed cleared removal
      obtain ⟨clearedExact, clearedPlain⟩ := seqRm_exact plain exact_ removal
      have clearedSound := sound.of_carried (seqRm_carried plain removal)
      split at success
      · split at success
        · rename_i placed search
          cases success
          exact clearedSound.of_carried
            (findSlot_full_carried clearedPlain clearedExact.head search)
        · rename_i placed search
          split at success
          · rename_i block
            cases success
            have placedSound := clearedSound.findSlot clearedPlain clearedExact.head search (by
              intro j inside
              rw [seqRm_delta plain removal]
              exact fresh rfl j (by simpa [restoreBatch] using inside))
            have positions : (restoreBatch env destSeqId saved).tokens.map BatchToken.pos =
                saved.map SavedCell.pos := by
              simp [restoreBatch]
            rw [positions] at placedSound
            exact placedSound.of_carried (restoreQsa_carried (restoredBlock_fits block))
          · cases success
      · cases success
        exact clearedSound

theorem RopeRun.Sound.readAllMeta {restored : Bool} (sound : RopeRun.Sound ⟨c, rope⟩)
    (success : readAllMeta env c saved = (restored, c'))
    (fresh : restored = true → ∀ j, j < saved.length → (c.cell j).delta = 0) :
    RopeRun.Sound ⟨c', if restored then ropePlaced rope 0 (saved.map SavedCell.pos)
      else rope⟩ := by
  unfold Kv.readAllMeta at success
  split at success
  · cases success
    exact sound
  · rename_i roomy
    split at success
    · cases success
      have fits : saved.length ≤ (kvCacheClear c).cells.length := by
        simpa [kvCacheClear, KvCache.size] using not_lt.mp roomy
      have cell := overwriteCells_getD (SavedCell.restoreCell env (kvCacheClear c).qsa)
        (kvCacheClear c).cells saved fits
      have delta : ∀ i, ((overwriteCells (SavedCell.restoreCell env (kvCacheClear c).qsa)
          (kvCacheClear c).cells saved).getD i {}).delta = (c.cell i).delta := by
        intro i
        rw [cell i, ← (kvCacheClear_cell c i).2]
        cases saved[i]? with
        | none => rfl
        | some s => cases qsa : (kvCacheClear c).qsa <;> rfl
      generalize overwriteCells (SavedCell.restoreCell env (kvCacheClear c).qsa)
        (kvCacheClear c).cells saved = cells at cell delta
      constructor
      · intro i alive
        change (cells.getD i {}).isEmpty = false at alive
        change ropePlaced rope 0 (saved.map SavedCell.pos) i + (cells.getD i {}).delta =
          (cells.getD i {}).pos
        rw [delta i]
        rw [cell i] at alive ⊢
        cases restoredCell : saved[i]? with
        | none =>
          rw [restoredCell] at alive
          have empty := (kvCacheClear_cell c i).1
          simp only [KvCache.cell] at empty
          simp only [empty] at alive
          cases alive
        | some s =>
          have inside := (List.getElem?_eq_some_iff.mp restoredCell).1
          have placed := ropePlaced_inside rope 0 (saved.map SavedCell.pos) i (by simpa using inside)
          rw [zero_add] at placed
          rw [placed, fresh rfl i inside, getD_eq_getElem?_getD, List.getElem?_map,
            restoredCell]
          simp only [Int.add_zero]
          cases (kvCacheClear c).qsa <;> rfl
      · intro unset i
        exact (delta i).trans (sound.settled unset i)
    · cases success
      exact sound.of_carried (clear_carried c)

theorem RopeRun.Sound.readKvCache {destSeqId : Int} {dataRead : Bool} (plain : c.Plain)
    (exact_ : c.Exact) (valid : ContextOp.Valid (.readState destSeqId saved dataRead))
    (fresh : ContextOp.FillsFresh env c (.readState destSeqId saved dataRead))
    (sound : RopeRun.Sound ⟨c, rope⟩)
    (success : readKvCache env c destSeqId saved dataRead = some c') :
    RopeRun.Sound ⟨c', ropeAfter env c rope (.readState destSeqId saved dataRead)⟩ := by
  unfold Kv.readKvCache at success
  simp only [ContextOp.FillsFresh, filledCells] at fresh
  simp only [ropeAfter]
  split at success
  · rename_i whole
    rw [if_pos whole] at fresh
    cases read : Kv.readAllMeta env c saved with
    | mk restored after =>
      have afterSound := sound.readAllMeta read (by
        intro isRestored j inside
        rw [read, if_pos isRestored] at fresh
        exact fresh j (mem_range'_1.mpr ⟨Nat.zero_le _, by omega⟩))
      simp only [read, Option.some.injEq] at success
      subst c'
      split
      · exact afterSound
      · exact afterSound.of_carried (clear_carried after)
  · rename_i single
    rw [if_neg single] at fresh ⊢
    split at success
    · cases success
    · rename_i restored after read
      obtain ⟨afterExact, afterPlain⟩ :=
        readSeqMeta_exact plain exact_ (fun s member => (valid s member).1) read
      have afterSound := sound.readSeqMeta plain exact_ read (by
        intro isRestored j inside
        subst isRestored
        rw [read] at fresh
        exact fresh _ (mem_range'_1.mpr ⟨Nat.le_add_right _ _, by omega⟩))
      have ghost : (match Kv.readSeqMeta env c destSeqId saved with
          | some (true, placed) => ropePlaced rope placed.head (saved.map SavedCell.pos)
          | _ => rope) =
          if restored then ropePlaced rope after.head (saved.map SavedCell.pos) else rope := by
        rw [read]
        cases restored <;> rfl
      rw [ghost]
      split at success
      · cases success
        exact afterSound
      · obtain ⟨⟨removed, last⟩, removal, equal⟩ := Option.map_eq_some_iff.mp success
        cases equal
        exact afterSound.of_carried (seqRm_carried afterPlain removal)

theorem ropeStep_sound {run next : RopeRun} (op : ContextOp) (plain : run.cache.Plain)
    (exact_ : run.cache.Exact) (valid : op.Valid) (fresh : op.FillsFresh env run.cache)
    (sound : run.Sound) (stepped : ropeStep env run op = some next) : next.Sound := by
  obtain ⟨c', cacheStepped, equal⟩ := Option.map_eq_some_iff.mp stepped
  subst next
  cases op with
  | defrag =>
    rw [← Option.some.inj cacheStepped]
    unfold kvCacheDefrag
    split
    · exact sound
    · exact sound.of_carried
        (carried_of_same rfl (fun _ => rfl) (fun _ alive => alive) (fun _ => rfl))
  | update =>
    obtain ⟨⟨updated, last⟩, ran, equal⟩ := Option.map_eq_some_iff.mp cacheStepped
    cases equal
    exact sound.update exact_ ran
  | readState destSeqId saved dataRead =>
    exact sound.readKvCache plain exact_ valid fresh cacheStepped
  | cache op =>
    by_cases search : ∃ batch embdToken meta_, op = .findSlot batch embdToken meta_
    · obtain ⟨batch, embdToken, meta_, equal⟩ := search
      subst op
      simp only [contextStep, cacheStep] at cacheStepped
      simp only [ContextOp.FillsFresh, filledCells] at fresh
      simp only [ropeAfter]
      cases searched : kvCacheFindSlot run.cache batch embdToken meta_ with
      | mk found placed =>
        rw [searched] at cacheStepped fresh
        cases found with
        | false =>
          rw [← Option.some.inj cacheStepped]
          exact sound.of_carried (findSlot_full_carried plain exact_.head searched)
        | true =>
          rw [← Option.some.inj cacheStepped]
          have slotFresh : ∀ j, j < batch.tokens.length →
              (run.cache.cell (placed.head + j)).delta = 0 := fun j inside =>
            fresh _ (mem_range'_1.mpr ⟨Nat.le_add_right _ _, by omega⟩)
          exact (sound.findSlot plain exact_.head searched slotFresh).of_carried
            (carried_of_same rfl (fun _ => rfl) (fun _ alive => alive) (fun _ => rfl))
    · have noSearch : ∀ batch embdToken meta_, op ≠ .findSlot batch embdToken meta_ :=
        fun batch embdToken meta_ equal => search ⟨batch, embdToken, meta_, equal⟩
      have unchanged : ropeAfter env run.cache run.rope (.cache op) = run.rope := by
        cases op with
        | findSlot batch embdToken meta_ => exact absurd rfl (noSearch batch embdToken meta_)
        | _ => rfl
      rw [unchanged]
      exact sound.of_carried (cacheStep_carried op plain noSearch cacheStepped)

theorem kvCacheInit_ropeSound (cfg : KvConfig) (kvSize : Nat) (rope : Nat → Int) :
    RopeRun.Sound ⟨kvCacheInit cfg kvSize, rope⟩ := by
  have blank : ∀ i, ((kvCacheInit cfg kvSize).cell i).isEmpty = true ∧
      ((kvCacheInit cfg kvSize).cell i).delta = 0 := by
    intro i
    by_cases inside : i < (kvCacheInit cfg kvSize).cells.length
    · rw [KvCache.cell, getD_eq_getElem _ _ inside]
      simp only [kvCacheInit, getElem_map]
      split <;> exact ⟨rfl, rfl⟩
    · rw [KvCache.cell, getD_eq_default _ _ (not_lt.mp inside)]
      exact ⟨rfl, rfl⟩
  refine ⟨fun i alive => ?_, fun _ i => (blank i).2⟩
  rw [(blank i).1] at alive
  cases alive

theorem ropeReaches_sound (env : ContextEnv) (cfg : KvConfig) (kvSize : Nat)
    (transformer : cfg.recurrent = false) (rope : Nat → Int) (run : RopeRun)
    (reached : Reaches (ropeStep env) (fun run op => op.Valid ∧ op.FillsFresh env run.cache)
      ⟨kvCacheInit cfg kvSize, rope⟩ run) :
    run.cache.Exact ∧ run.cache.Plain ∧ run.Sound := by
  refine reached.invariant (fun run => run.cache.Exact ∧ run.cache.Plain ∧ run.Sound)
    ?_ ?_
  · exact ⟨kvCacheInit_exact cfg kvSize, kvCacheInit_plain cfg kvSize transformer,
      kvCacheInit_ropeSound cfg kvSize rope⟩
  · intro state op next holds allowed stepped
    obtain ⟨exact_, plain, sound⟩ := holds
    have nextSound := ropeStep_sound op plain exact_ allowed.1 allowed.2 sound stepped
    obtain ⟨c', cacheStepped, equal⟩ := Option.map_eq_some_iff.mp stepped
    subst next
    obtain ⟨nextExact, nextPlain⟩ :=
      contextStep_exact env state.cache c' op plain exact_ allowed.1 cacheStepped
    exact ⟨nextExact, nextPlain, nextSound⟩

theorem update_unsets_hasShift {updated : Bool} (ropes : env.ropeNone = false)
    (accepted : updateRefused env c = false) (success : kvCacheUpdate env c = some (updated, c')) :
    c'.hasShift = false := by
  rcases kvCacheUpdate_cases success with ⟨refused, _⟩ | ⟨_, moved⟩
  · rw [accepted] at refused
    cases refused
  · have shifted : (Kv.applyShift env c).hasShift = false := by
      unfold Kv.applyShift
      split
      · rfl
      · rename_i idle
        simpa [shiftPending, ropes] using idle
    have copied : (applyStateCopy (Kv.applyShift env c)).hasShift = false := by
      unfold applyStateCopy
      split
      · exact shifted
      · exact shifted
    unfold applyDefrag at moved
    split at moved
    · obtain ⟨s, _, equal⟩ := Option.map_eq_some_iff.mp moved
      rw [← equal]
      exact copied
    · rw [← Option.some.inj moved]
      exact copied

/-- Along every run that fills only cells without `delta`, each non-empty cell is `delta`
away from its rope position, and at it after an update that may shift. -/
theorem reachable_rope_aligned (env : ContextEnv) (cfg : KvConfig) (kvSize : Nat)
    (transformer : cfg.recurrent = false) (rope : Nat → Int) (run : RopeRun)
    (reached : Reaches (ropeStep env) (fun run op => op.Valid ∧ op.FillsFresh env run.cache)
      ⟨kvCacheInit cfg kvSize, rope⟩ run) :
    (∀ i, (run.cache.cell i).isEmpty = false →
      run.rope i + (run.cache.cell i).delta = (run.cache.cell i).pos) ∧
    (env.ropeNone = false → updateRefused env run.cache = false → ∀ next : RopeRun,
      ropeStep env run .update = some next → ∀ i, (next.cache.cell i).isEmpty = false →
        (next.cache.cell i).delta = 0 ∧ next.rope i = (next.cache.cell i).pos) := by
  obtain ⟨exact_, plain, sound⟩ := ropeReaches_sound env cfg kvSize transformer rope run reached
  refine ⟨sound.aligned, fun ropes accepted next stepped i alive => ?_⟩
  have nextSound := ropeStep_sound .update plain exact_ trivial
    (fun _ impossible => by cases impossible) sound stepped
  obtain ⟨c', cacheStepped, equal⟩ := Option.map_eq_some_iff.mp stepped
  obtain ⟨⟨updated, last⟩, ran, same⟩ := Option.map_eq_some_iff.mp cacheStepped
  have unset : next.cache.hasShift = false := by
    subst next
    cases same
    exact update_unsets_hasShift ropes accepted ran
  have delta := nextSound.settled unset i
  have aligned := nextSound.aligned i alive
  exact ⟨delta, by omega⟩

def ropeStart : RopeRun := ⟨kvCacheInit {} 4, fun _ => 0⟩

def shiftOps : List ContextOp :=
  [.cache (.findSlot { tokens := [⟨10, 0, [0], 0, 0, 0⟩, ⟨11, 1, [0], 1, 1, 0⟩] } tokenNull true),
   .cache (.seqAdd 0 0 (-1) 3)]

theorem shift_runs : (runChecked (ropeStep {})
    (fun run op => op.Valid ∧ op.FillsFresh {} run.cache) ropeStart shiftOps).isSome = true := by
  decide +kernel

theorem reachable_rope_aligned_at_shift :
    ∃ run, Reaches (ropeStep {}) (fun run op => op.Valid ∧ op.FillsFresh {} run.cache)
        ropeStart run ∧
      (∀ i, (run.cache.cell i).isEmpty = false →
        run.rope i + (run.cache.cell i).delta = (run.cache.cell i).pos) ∧
      ∀ next, ropeStep {} run .update = some next → ∀ i, (next.cache.cell i).isEmpty = false →
        (next.cache.cell i).delta = 0 ∧ next.rope i = (next.cache.cell i).pos := by
  have reached := reaches_of_runChecked shiftOps ropeStart _ (Option.some_get shift_runs).symm
  obtain ⟨aligned, updated⟩ := reachable_rope_aligned {} {} 4 rfl _ _ reached
  refine ⟨_, reached, aligned, updated rfl ?_⟩
  simp [updateRefused]

def staleOps : List ContextOp :=
  shiftOps ++ [.cache (.seqRm 0 (-1) (-1)), .readState 0 [{ pos := 0 }, { pos := 1 }] true]

theorem stale_runs :
    (runChecked (ropeStep {}) (fun _ op => op.Valid) ropeStart staleOps).isSome = true := by
  decide +kernel

def staleRun : RopeRun :=
  (runChecked (ropeStep {}) (fun _ op => op.Valid) ropeStart staleOps).get stale_runs

/-- The restored rows sit in cells that still carry the shift by three. -/
theorem readKvCache_keeps_stale_delta :
    ¬ ∀ (env : ContextEnv) (cfg : KvConfig) (kvSize : Nat), cfg.recurrent = false →
      ∀ (rope : Nat → Int) (run : RopeRun),
      Reaches (ropeStep env) (fun _ op => op.Valid) ⟨kvCacheInit cfg kvSize, rope⟩ run →
      ∀ i, (run.cache.cell i).isEmpty = false →
        run.rope i + (run.cache.cell i).delta = (run.cache.cell i).pos := by
  intro claimed
  have reached : Reaches (ropeStep {}) (fun _ op => op.Valid) ropeStart staleRun :=
    reaches_of_runChecked staleOps ropeStart _ (Option.some_get stale_runs).symm
  have aligned := claimed {} {} 4 rfl _ staleRun reached 0 (by decide +kernel)
  have stale : staleRun.rope 0 + (staleRun.cache.cell 0).delta ≠ (staleRun.cache.cell 0).pos := by
    decide +kernel
  exact stale aligned

end LlamaCpp.Kv
