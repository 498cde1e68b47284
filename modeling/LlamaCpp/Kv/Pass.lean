import LlamaCpp.Kv.FindSlot
import Mathlib.Data.List.GetD
import Mathlib.Tactic.Ring

/-!
# Laws of one pass over the cells

What a pass leaves in the cells, in `used` and in `new_head`, for any iteration
body, and what the placing loop of `llama_kv_cache_find_slot` leaves in a cell.
-/

set_option autoImplicit false

namespace LlamaCpp.Kv

open List Option Bool

theorem getD_congr_map {β : Type*} (g : KvCell → β) {cells cells' : List KvCell}
    (same : cells'.map g = cells.map g) (s : Nat) :
    g (cells'.getD s {}) = g (cells.getD s {}) := by
  have through : ∀ l : List KvCell, g (l.getD s {}) = (l.map g).getD s (g {}) :=
    fun l => (getD_map l {} g).symm
  rw [through, through, same]

theorem getD_modify_self (cells : List KvCell) (i : Nat) (f : KvCell → KvCell)
    (inside : i < cells.length) : (cells.modify i f).getD i {} = f (cells.getD i {}) := by
  simp [inside]

theorem getD_modify_ne (cells : List KvCell) (i s : Nat) (f : KvCell → KvCell) (apart : i ≠ s) :
    (cells.modify i f).getD s {} = cells.getD s {} := by
  simp [apart]

theorem sweepFrom_cells (visit : Nat → KvCell → CellVisit) (i : Nat) (cells : List KvCell)
    (used : Int) (newHead : Option Nat) (hasShift : Bool) :
    (sweepFrom visit i cells used newHead hasShift).cells =
      cells.mapIdx fun j cell => (visit (i + j) cell).cell := by
  induction cells generalizing i used newHead hasShift with
  | nil => rfl
  | cons cell rest ih =>
    simp only [sweepFrom]
    rw [ih]
    simp [add_assoc, add_comm 1]

theorem KvCache.sweep_cells (c : KvCache) (visit : Nat → KvCell → CellVisit) :
    (c.sweep visit).cells = c.cells.mapIdx fun i cell => (visit i cell).cell := by
  simp [KvCache.sweep, sweepFrom_cells]

theorem getD_sweep (c : KvCache) (visit : Nat → KvCell → CellVisit) (s : Nat)
    (inside : s < c.size) : (c.sweep visit).cells.getD s {} = (visit s (c.cell s)).cell := by
  have inside' : s < (c.sweep visit).cells.length := by
    simpa [KvCache.sweep_cells, KvCache.size] using inside
  rw [KvCache.cell, getD_eq_getElem _ _ inside', getD_eq_getElem _ _ inside]
  simp only [KvCache.sweep_cells, getElem_mapIdx]
  rfl

theorem sweepFrom_newHead_lt (visit : Nat → KvCell → CellVisit) (i : Nat) (cells : List KvCell)
    (used : Int) (newHead : Option Nat) (hasShift : Bool) (h : Nat)
    (found : (sweepFrom visit i cells used newHead hasShift).newHead = some h) :
    newHead = some h ∨ h < i + cells.length := by
  induction cells generalizing i used newHead hasShift with
  | nil => exact Or.inl found
  | cons cell rest ih =>
    rcases ih _ _ _ _ found with earlier | later
    · split at earlier
      · cases newHead with
        | none =>
          simp only [none_or, some.injEq] at earlier
          simp only [length_cons]
          omega
        | some old => exact Or.inl (by simpa using earlier)
      · exact Or.inl earlier
    · simp only [length_cons]
      omega

theorem KvCache.sweep_newHead_lt (c : KvCache) (visit : Nat → KvCell → CellVisit) (h : Nat)
    (found : (c.sweep visit).newHead = some h) : h < c.size := by
  rcases sweepFrom_newHead_lt visit 0 c.cells _ _ _ h found with absent | inside
  · cases absent
  · simpa [KvCache.size] using inside

/-- A pass that decrements `used` exactly when it takes a cell off those that count keeps
their number. -/
theorem sweepFrom_used {counts : KvCell → Bool} (visit : Nat → KvCell → CellVisit) (i : Nat)
    (cells : List KvCell) (used : Int) (newHead : Option Nat) (hasShift : Bool)
    (balanced : ∀ j, ∀ cell ∈ cells, (counts (visit j cell).cell).toNat +
      (visit j cell).unused.toNat = (counts cell).toNat) :
    (sweepFrom visit i cells used newHead hasShift).used -
        ((sweepFrom visit i cells used newHead hasShift).cells.countP counts : Int) =
      used - (cells.countP counts : Int) := by
  induction cells generalizing i used newHead hasShift with
  | nil => rfl
  | cons cell rest ih =>
    have here := balanced i cell (mem_cons_self ..)
    have later := ih (i + 1) (if (visit i cell).unused then used - 1 else used)
      (if (visit i cell).freed then newHead.or (some i) else newHead)
      (hasShift || (visit i cell).shifted)
      (fun j other member => balanced j other (mem_cons_of_mem _ member))
    simp only [sweepFrom, countP_cons]
    cases before : counts cell <;> cases after : counts (visit i cell).cell <;>
      cases dropped : (visit i cell).unused <;>
      simp only [before, after, dropped, toNat_true, toNat_false] at here later <;>
      simp only [false_eq_true, if_true, if_false] at later ⊢ <;>
      omega

theorem KvCache.sweep_used {counts : KvCell → Bool} (c : KvCache) (visit : Nat → KvCell → CellVisit)
    (exact_ : c.used = c.cells.countP counts)
    (balanced : ∀ j, ∀ cell ∈ c.cells, (counts (visit j cell).cell).toNat +
      (visit j cell).unused.toNat = (counts cell).toNat) :
    (c.sweep visit).used = (c.sweep visit).cells.countP counts := by
  have balance := sweepFrom_used visit 0 c.cells c.used none c.hasShift balanced
  simp only [KvCache.sweep]
  omega

/-- A pass that never decrements `used` leaves it. -/
theorem sweepFrom_used_kept (visit : Nat → KvCell → CellVisit) (i : Nat) (cells : List KvCell)
    (used : Int) (newHead : Option Nat) (hasShift : Bool)
    (never : ∀ j cell, (visit j cell).unused = false) :
    (sweepFrom visit i cells used newHead hasShift).used = used := by
  induction cells generalizing i used newHead hasShift with
  | nil => rfl
  | cons cell rest ih =>
    simp only [sweepFrom]
    rw [ih]
    simp [never]

theorem lowerHead_le (head size : Nat) (newHead : Option Nat) (bounded : head ≤ size) :
    lowerHead head newHead ≤ size := by
  cases newHead with
  | none => exact bounded
  | some h =>
    simp only [lowerHead]
    split <;> omega

theorem placeTokens_length (env : PlaceEnv) (toks : List BatchToken)
    (best : Int → Option Int) (cells : List KvCell) (fits : toks.length ≤ cells.length) :
    (placeTokens env best cells toks).length = cells.length := by
  induction toks generalizing best cells with
  | nil => simp [placeTokens]
  | cons tok toks ih =>
    cases cells with
    | nil => simp at fits
    | cons cell cells =>
      simp only [placeTokens, length_cons]
      rw [ih _ cells (by simpa using fits)]

/-- The cell that token `j` of the batch gets is the old cell `j`, rewritten. -/
theorem placeTokens_getElem_placed (env : PlaceEnv) (toks : List BatchToken)
    (best : Int → Option Int) (cells : List KvCell) (fits : toks.length ≤ cells.length)
    (j : Nat) (placed : j < toks.length) :
    ∃ best', (placeTokens env best cells toks)[j]? =
      some (placeCell env best' cells[j] toks[j]) := by
  induction toks generalizing best cells j with
  | nil => simp at placed
  | cons tok toks ih =>
    cases cells with
    | nil => simp at fits
    | cons cell cells =>
      cases j with
      | zero => exact ⟨best, rfl⟩
      | succ j =>
        exact ih _ cells (by simpa using fits) j (by simpa using placed)

theorem placeTokens_getElem_kept (env : PlaceEnv) (toks : List BatchToken)
    (best : Int → Option Int) (cells : List KvCell) (fits : toks.length ≤ cells.length)
    (j : Nat) (beyond : toks.length ≤ j) :
    (placeTokens env best cells toks)[j]? = cells[j]? := by
  induction toks generalizing best cells j with
  | nil => simp [placeTokens]
  | cons tok toks ih =>
    cases cells with
    | nil => simp at fits
    | cons cell cells =>
      cases j with
      | zero => simp at beyond
      | succ j =>
        exact ih _ cells (by simpa using fits) j (by simpa using beyond)

theorem firstPlaced_some (cells : List KvCell) (head nTokens i : Nat)
    (found : firstPlaced cells head nTokens = some i) : i < nTokens := by
  simp only [firstPlaced, List.findIdx?_eq_some_iff_getElem] at found
  obtain ⟨inside, _⟩ := found
  simp only [length_take] at inside
  omega

theorem firstPlaced_occupied (cells : List KvCell) (head nTokens i : Nat)
    (found : firstPlaced cells head nTokens = some i) : 0 ≤ (cells.getD (head + i) {}).pos := by
  simp only [firstPlaced, List.findIdx?_eq_some_iff_getElem] at found
  obtain ⟨inside, occupied, _⟩ := found
  have inCells : head + i < cells.length := by
    simp only [length_take, length_drop] at inside
    omega
  rw [getD_eq_getElem _ _ inCells]
  simpa using occupied

theorem findSlotLoop_spec (cells : List KvCell) (nTokens : Nat) (fits : nTokens ≤ cells.length)
    (head nTested : Nat) (bounded : head ≤ cells.length) :
    (findSlotLoop cells nTokens fits head nTested).2 ≤ cells.length ∧
      ((findSlotLoop cells nTokens fits head nTested).1 = true →
        (findSlotLoop cells nTokens fits head nTested).2 + nTokens ≤ cells.length ∧
        firstPlaced cells (findSlotLoop cells nTokens fits head nTested).2 nTokens = none) := by
  fun_induction findSlotLoop cells nTokens fits head nTested with
  | case1 head nTested wraps ih => exact ih (Nat.zero_le _)
  | case2 head nTested inside free => exact ⟨bounded, fun _ => ⟨by omega, free⟩⟩
  | case3 head nTested inside i found spent =>
    have := firstPlaced_some cells head nTokens i found
    exact ⟨by omega, fun impossible => by cases impossible⟩
  | case4 head nTested inside i found more ih =>
    have := firstPlaced_some cells head nTokens i found
    exact ih (by omega)

/-- The run of free cells from `start` on is still ahead of the search at `head`, which has
`nTested` cells behind it. -/
def RunAhead (size start head nTested : Nat) : Prop :=
  head ≤ size ∧ nTested + (if head ≤ start then start - head else size - head + start) < size

theorem occupied_before_run {cells : List KvCell} {nTokens start head i : Nat}
    (free : ∀ j, j < nTokens → (cells.getD (start + j) {}).pos < 0) (before : head ≤ start)
    (near : i < nTokens) (occupied : 0 ≤ (cells.getD (head + i) {}).pos) : head + i < start := by
  by_contra reached
  obtain ⟨j, equal⟩ := Nat.exists_eq_add_of_le (not_lt.mp reached)
  have negative := free j (by omega)
  rw [← equal] at negative
  omega

theorem findSlotLoop_finds (cells : List KvCell) (nTokens : Nat) (fits : nTokens ≤ cells.length)
    (start : Nat) (inside : start + nTokens ≤ cells.length)
    (free : ∀ j, j < nTokens → (cells.getD (start + j) {}).pos < 0) (head nTested : Nat)
    (ahead : RunAhead cells.length start head nTested) :
    (findSlotLoop cells nTokens fits head nTested).1 = true := by
  obtain ⟨bounded, room⟩ := ahead
  fun_induction findSlotLoop cells nTokens fits head nTested with
  | case1 head nTested wraps ih =>
    have behind : ¬ head ≤ start := by omega
    rw [if_neg behind] at room
    exact ih (Nat.zero_le _) (by rw [if_pos (Nat.zero_le _)]; omega)
  | case2 => rfl
  | case3 head nTested _ i found spent =>
    have first := firstPlaced_some cells head nTokens i found
    have notFree := firstPlaced_occupied cells head nTokens i found
    split at room
    · rename_i before
      have outside := occupied_before_run free before first notFree
      omega
    · omega
  | case4 head nTested _ i found more ih =>
    have first := firstPlaced_some cells head nTokens i found
    have notFree := firstPlaced_occupied cells head nTokens i found
    refine ih (by omega) ?_
    split at room
    · rename_i before
      have outside := occupied_before_run free before first notFree
      rw [if_pos (by omega)]
      omega
    · rw [if_neg (by omega)]
      omega

theorem kvCacheFindSlot_found (c c' : KvCache) (batch : Batch) (embdToken : Int) (meta_ : Bool)
    (plain : c.recurrent = false) (bounded : c.head ≤ c.size)
    (found : kvCacheFindSlot c batch embdToken meta_ = (true, c')) :
    ∃ head, head + batch.tokens.length ≤ c.size ∧
      firstPlaced c.cells head batch.tokens.length = none ∧
      c' = { c with
        head := head
        cells := c.cells.take head ++
          placeTokens (placeEnv c batch embdToken meta_) (qsaMax c.cells)
            (c.cells.drop head) batch.tokens
        used := c.used + batch.tokens.length } := by
  have notRecurrent : ¬ c.recurrent = true := by simp [plain]
  simp only [kvCacheFindSlot, if_neg notRecurrent] at found
  split at found
  · rename_i fits
    have spec := findSlotLoop_spec c.cells batch.tokens.length fits c.head 0 bounded
    split at found
    · cases found
    · rename_i head loop
      rw [loop] at spec
      cases found
      exact ⟨head, (spec.2 rfl).1, (spec.2 rfl).2, rfl⟩
  · cases found

theorem kvCacheFindSlot_full (c c' : KvCache) (batch : Batch) (embdToken : Int) (meta_ : Bool)
    (plain : c.recurrent = false) (bounded : c.head ≤ c.size)
    (full : kvCacheFindSlot c batch embdToken meta_ = (false, c')) :
    ∃ head, head ≤ c.size ∧ c' = { c with head := head } := by
  have notRecurrent : ¬ c.recurrent = true := by simp [plain]
  simp only [kvCacheFindSlot, if_neg notRecurrent] at full
  split at full
  · rename_i fits
    have spec := findSlotLoop_spec c.cells batch.tokens.length fits c.head 0 bounded
    split at full
    · rename_i head loop
      rw [loop] at spec
      cases full
      exact ⟨head, spec.1, rfl⟩
    · cases full
  · cases full
    exact ⟨c.head, bounded, rfl⟩

theorem kvCacheFindSlot_cell (c c' : KvCache) (batch : Batch) (embdToken : Int) (meta_ : Bool)
    (plain : c.recurrent = false) (bounded : c.head ≤ c.size)
    (found : kvCacheFindSlot c batch embdToken meta_ = (true, c')) :
    c'.head + batch.tokens.length ≤ c.size ∧ c'.hasShift = c.hasShift ∧
      (∀ j, (inside : j < batch.tokens.length) → ∃ best, c'.cell (c'.head + j) =
        placeCell (placeEnv c batch embdToken meta_) best (c.cell (c'.head + j)) batch.tokens[j]) ∧
      ∀ i, i < c'.head ∨ c'.head + batch.tokens.length ≤ i → c'.cell i = c.cell i := by
  obtain ⟨head, fits, free, equal⟩ :=
    kvCacheFindSlot_found c c' batch embdToken meta_ plain bounded found
  subst c'
  have room : batch.tokens.length ≤ (c.cells.drop head).length := by
    simp only [KvCache.size] at fits
    rw [length_drop]
    omega
  have prefixLength : (c.cells.take head).length = head := by
    simp only [KvCache.size] at fits
    rw [length_take]
    omega
  have shifted : ∀ j, (c.cells.take head ++ placeTokens (placeEnv c batch embdToken meta_)
      (qsaMax c.cells) (c.cells.drop head) batch.tokens)[head + j]? =
      (placeTokens (placeEnv c batch embdToken meta_) (qsaMax c.cells) (c.cells.drop head)
        batch.tokens)[j]? := by
    intro j
    rw [List.getElem?_append_right (by omega), prefixLength, Nat.add_sub_cancel_left]
  refine ⟨fits, rfl, ?_, ?_⟩
  · intro j inside
    obtain ⟨best, placed⟩ := placeTokens_getElem_placed (placeEnv c batch embdToken meta_)
      batch.tokens (qsaMax c.cells) (c.cells.drop head) room j inside
    refine ⟨best, ?_⟩
    simp only [KvCache.size] at fits
    simp only [KvCache.cell, getD_eq_getElem?_getD, shifted, placed, getD_some]
    rw [getElem_drop, List.getElem?_eq_getElem (by omega), getD_some]
  · intro i outside
    change i < head ∨ head + batch.tokens.length ≤ i at outside
    simp only [KvCache.cell, getD_eq_getElem?_getD]
    rcases outside with before | after
    · rw [List.getElem?_append_left (by omega), List.getElem?_take_of_lt before]
    · obtain ⟨j, equal⟩ := Nat.exists_eq_add_of_le (show head ≤ i by omega)
      subst i
      rw [shifted, placeTokens_getElem_kept _ _ _ _ room j (by omega), List.getElem?_drop]

end LlamaCpp.Kv
