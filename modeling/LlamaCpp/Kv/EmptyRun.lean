import LlamaCpp.Kv.Pass
import Mathlib.Data.Finset.Lattice.Lemmas

/-!
# Runs of empty cells

The search for a slot starts at the head, skips the occupied cells that it meets and wraps
once.  It finds a run of empty cells wherever one lies, also across the head.
-/

set_option autoImplicit false

namespace LlamaCpp.Kv

open List

/-- The `nTokens` cells from `start` on lie in the cache and are empty. -/
def EmptyRun (c : KvCache) (nTokens start : Nat) : Prop :=
  start + nTokens ≤ c.size ∧ ∀ j, j < nTokens → (c.cell (start + j)).isEmpty = true

def PlacedExactly (c : KvCache) : Prop :=
  ∀ i, i < c.size → (0 ≤ (c.cell i).pos ↔ (c.cell i).isEmpty = false)

instance (c : KvCache) (nTokens start : Nat) : Decidable (EmptyRun c nTokens start) :=
  inferInstanceAs (Decidable (_ ∧ _))

instance (c : KvCache) : Decidable (PlacedExactly c) :=
  inferInstanceAs (Decidable (∀ i, i < c.size → _))

theorem firstPlaced_none {cells : List KvCell} {head nTokens : Nat}
    (none_ : firstPlaced cells head nTokens = none) {j : Nat} (near : j < nTokens)
    (inside : head + j < cells.length) : (cells.getD (head + j) {}).pos < 0 := by
  rw [firstPlaced, List.findIdx?_eq_none_iff] at none_
  have member : cells[head + j] ∈ (cells.drop head).take nTokens := by
    rw [mem_take_iff_getElem]
    refine ⟨j, ?_, ?_⟩
    · rw [length_drop]
      omega
    · rw [getElem_drop]
  have free := none_ _ member
  rw [decide_eq_false_iff_not, not_le] at free
  rwa [getD_eq_getElem _ _ inside]

section

variable {c : KvCache} (placed : PlacedExactly c)

include placed

theorem EmptyRun.pos_neg {nTokens start : Nat} (run : EmptyRun c nTokens start) {j : Nat}
    (near : j < nTokens) : (c.cell (start + j)).pos < 0 := by
  obtain ⟨inside, free⟩ := run
  by_contra occupied
  have held := (placed (start + j) (by omega)).mp (not_lt.mp occupied)
  rw [free j near] at held
  cases held

theorem emptyRun_of_firstPlaced {nTokens head : Nat} (inside : head + nTokens ≤ c.size)
    (none_ : firstPlaced c.cells head nTokens = none) : EmptyRun c nTokens head := by
  refine ⟨inside, fun j near => ?_⟩
  have room : head + j < c.size := by omega
  have negative := firstPlaced_none none_ near room
  cases empty : (c.cell (head + j)).isEmpty with
  | true => rfl
  | false =>
    have held := (placed (head + j) room).mpr empty
    rw [KvCache.cell] at held
    omega

end

theorem runAhead_start {size head start nTokens : Nat} (bounded : head ≤ size)
    (inside : start + nTokens ≤ size) (some_ : 0 < nTokens) : RunAhead size start head 0 := by
  refine ⟨bounded, ?_⟩
  split <;> omega

theorem findSlotLoop_zero (cells : List KvCell) {head : Nat} (bounded : head ≤ cells.length) :
    findSlotLoop cells 0 (Nat.zero_le _) head 0 = (true, head) := by
  have none_ : firstPlaced cells head 0 = none := rfl
  rw [findSlotLoop, dif_neg (by omega)]
  simp [none_]

theorem kvCacheFindSlot_finds {c : KvCache} (placed : PlacedExactly c) (plain : c.recurrent = false)
    (bounded : c.head ≤ c.size) (batch : Batch) (embdToken : Int) (meta_ : Bool) {start : Nat}
    (run : EmptyRun c batch.tokens.length start) :
    (kvCacheFindSlot c batch embdToken meta_).1 = true := by
  have notRecurrent : ¬ c.recurrent = true := by simp [plain]
  have fits : batch.tokens.length ≤ c.cells.length := (Nat.le_add_left _ _).trans run.1
  have found : (findSlotLoop c.cells batch.tokens.length fits c.head 0).1 = true := by
    rcases Nat.eq_zero_or_pos batch.tokens.length with none_ | some_
    · simp only [none_]
      rw [findSlotLoop_zero c.cells bounded]
    · exact findSlotLoop_finds c.cells _ fits start run.1 (fun j near => run.pos_neg placed near)
        c.head 0 (runAhead_start bounded run.1 some_)
  simp only [kvCacheFindSlot, if_neg notRecurrent, dif_pos fits]
  split
  · rename_i head loop
    rw [loop] at found
    cases found
  · rfl

theorem kvCacheFindSlot_writes {c c' : KvCache} (placed : PlacedExactly c)
    (plain : c.recurrent = false) (bounded : c.head ≤ c.size) {batch : Batch} {embdToken : Int}
    {meta_ : Bool} (found : kvCacheFindSlot c batch embdToken meta_ = (true, c')) :
    EmptyRun c batch.tokens.length c'.head ∧ c'.used = c.used + batch.tokens.length ∧
      ∀ j, (inside : j < batch.tokens.length) →
        (c'.cell (c'.head + j)).pos = batch.tokens[j].pos ∧
        (c'.cell (c'.head + j)).seqId = batch.tokens[j].seqIds.toFinset ∧
        (c'.cell (c'.head + j)).token = (placeEnv c batch embdToken meta_).tokenOf batch.tokens[j] := by
  obtain ⟨head, fits, free, same⟩ :=
    kvCacheFindSlot_found c c' batch embdToken meta_ plain bounded found
  obtain ⟨-, -, written, -⟩ := kvCacheFindSlot_cell c c' batch embdToken meta_ plain bounded found
  have run := emptyRun_of_firstPlaced placed fits free
  have headSame : c'.head = head := by rw [same]
  refine ⟨headSame ▸ run, by rw [same], fun j inside => ?_⟩
  obtain ⟨best, here⟩ := written j inside
  have empty : (c.cell (c'.head + j)).seqId = ∅ := by
    rw [headSame]
    exact (KvCell.isEmpty_iff _).mp (run.2 j inside)
  rw [here]
  refine ⟨rfl, ?_, rfl⟩
  simp [placeCell, empty]

/-- The search is complete: it succeeds exactly when some run of empty cells is long enough.  A
success rewrites the cells of such a run, at the head it leaves, and a failure no cell. -/
theorem kvCacheFindSlot_iff_emptyRun (c : KvCache) (batch : Batch) (embdToken : Int) (meta_ : Bool)
    (plain : c.recurrent = false) (placed : PlacedExactly c) (bounded : c.head ≤ c.size) :
    ((kvCacheFindSlot c batch embdToken meta_).1 = true ↔
        ∃ start, EmptyRun c batch.tokens.length start) ∧
      (∀ c', kvCacheFindSlot c batch embdToken meta_ = (true, c') →
        EmptyRun c batch.tokens.length c'.head ∧ c'.size = c.size ∧
        c'.used = c.used + batch.tokens.length ∧
        (∀ j, (inside : j < batch.tokens.length) →
          (c'.cell (c'.head + j)).pos = batch.tokens[j].pos ∧
          (c'.cell (c'.head + j)).seqId = batch.tokens[j].seqIds.toFinset ∧
          (c'.cell (c'.head + j)).token =
            (placeEnv c batch embdToken meta_).tokenOf batch.tokens[j]) ∧
        ∀ i, i < c'.head ∨ c'.head + batch.tokens.length ≤ i → c'.cell i = c.cell i) ∧
      ∀ c', kvCacheFindSlot c batch embdToken meta_ = (false, c') →
        c'.cells = c.cells ∧ c'.used = c.used := by
  refine ⟨⟨fun found => ?_, fun ⟨start, run⟩ =>
    kvCacheFindSlot_finds placed plain bounded batch embdToken meta_ run⟩, fun c' found => ?_,
    fun c' full => ?_⟩
  · have whole : kvCacheFindSlot c batch embdToken meta_ =
        (true, (kvCacheFindSlot c batch embdToken meta_).2) := Prod.ext found rfl
    exact ⟨_, (kvCacheFindSlot_writes placed plain bounded whole).1⟩
  · obtain ⟨run, used, written⟩ := kvCacheFindSlot_writes placed plain bounded found
    obtain ⟨-, -, -, kept⟩ := kvCacheFindSlot_cell c c' batch embdToken meta_ plain bounded found
    refine ⟨run, ?_, used, written, kept⟩
    obtain ⟨head, inside, -, same⟩ :=
      kvCacheFindSlot_found c c' batch embdToken meta_ plain bounded found
    have room : batch.tokens.length ≤ (c.cells.drop head).length := by
      rw [length_drop]
      rw [KvCache.size] at inside
      omega
    rw [same, KvCache.size, length_append, placeTokens_length _ _ _ _ room,
      ← length_append, take_append_drop, KvCache.size]
  · obtain ⟨head, -, same⟩ := kvCacheFindSlot_full c c' batch embdToken meta_ plain bounded full
    rw [same]
    exact ⟨rfl, rfl⟩

def wrappedCache : KvCache where
  head := 3
  used := 2
  cells := [{}, {}, { pos := 0, seqId := {0} }, { pos := 1, seqId := {0} }]

def pairBatch : Batch where
  tokens := [⟨7, 2, [0], 2, 2, 0⟩, ⟨8, 3, [0], 3, 3, 0⟩]

theorem kvCacheFindSlot_iff_emptyRun_at_wrapped :
    (kvCacheFindSlot wrappedCache pairBatch tokenNull).1 = true :=
  ((kvCacheFindSlot_iff_emptyRun wrappedCache pairBatch tokenNull true rfl (by decide)
    (by decide)).1).mpr ⟨0, by decide⟩

end LlamaCpp.Kv
