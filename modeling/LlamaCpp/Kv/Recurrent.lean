import LlamaCpp.Kv.Context

/-!
# Caches of recurrent states

A recurrent cache has one cell for each sequence.  `seq_cp` only records the cell to copy
from, and follows the record of a source that is itself a copy; the next update carries the
copies out.
-/

set_option autoImplicit false

namespace LlamaCpp.Kv

open LlamaCpp.Lib List Option

inductive RecurrentOp
  | findSlot (batch : Batch)
  | setInputs
  | update
  | seqCp (seqIdSrc seqIdDst : Int) (p0 p1 : Int)
  | seqRm (seqId : Int) (p0 p1 : Int)
  | seqKeep (seqId : Int)

/-- What `llama_set_inputs` does to the cells of the batch with the state mask: the current
sequences will be kept. -/
def keepCurrentSeqs (c : KvCache) : KvCache :=
  { c with cells := c.cells.mapIdx fun i cell =>
      if c.head ≤ i ∧ i < c.head + c.n ∧ 0 ≤ cell.pos then
        { cell with seqId := insert (i : Int) cell.seqId }
      else cell }

def recurrentStep (c : KvCache) : RecurrentOp → Option KvCache
  | .findSlot batch => some (findSlotRecurrent c batch).2
  | .setInputs => some (keepCurrentSeqs c)
  | .update => some (applyStateCopy c)
  | .seqCp a b p0 p1 => kvCacheSeqCp c a b p0 p1
  | .seqRm seqId p0 p1 => (kvCacheSeqRm c seqId p0 p1).map Prod.snd
  | .seqKeep seqId => some (kvCacheSeqKeep c seqId)

def KvCell.placed (cell : KvCell) : Bool := decide (0 ≤ cell.pos)

def KvCache.Present (c : KvCache) (a : Int) : Prop :=
  c.seqIdFits a = true ∧ a ∈ (c.cell a.toNat).seqId

def KvCache.sourceOf (c : KvCache) (a : Int) : Int := (c.cell a.toNat).src

def KvCache.SourceStands (c : KvCache) (a : Int) : Prop :=
  c.sourceOf a ∈ (c.cell (c.sourceOf a).toNat).seqId ∧
    (c.cell (c.sourceOf a).toNat).pos = (c.cell a.toNat).pos

def RecurrentOp.KeepsPlaces (c : KvCache) : RecurrentOp → Prop
  | .findSlot batch => ∀ tok ∈ batch.tokens, 0 ≤ tok.pos
  | .seqCp a b _ _ => c.seqIdFits a = true → c.seqIdFits b = true →
      (c.cell (c.sourceOf a).toNat).placed = (c.cell b.toNat).placed
  | _ => True

/-- What holds after every run: the cache stays recurrent, and each recorded source is a cell. -/
structure KvCache.Sources (c : KvCache) : Prop where
  recurrent : c.recurrent = true
  fits : ∀ i < c.size, c.seqIdFits (c.cell i).src = true

/-- `used` counts the cells with a position. -/
def KvCache.UsedExact (c : KvCache) : Prop := c.used = c.cells.countP KvCell.placed

variable {c c' : KvCache} {a b p0 p1 : Int}

theorem countP_modify {p : KvCell → Bool} (cells : List KvCell) (i : Nat) (f : KvCell → KvCell)
    (inside : i < cells.length) :
    (cells.modify i f).countP p + (p (cells.getD i {})).toNat =
      cells.countP p + (p (f (cells.getD i {}))).toNat := by
  induction cells generalizing i with
  | nil => simp at inside
  | cons cell rest ih =>
    cases i with
    | zero =>
      simp only [modify_zero_cons, countP_cons, getD_cons_zero]
      cases p cell <;> cases p (f cell) <;> simp
    | succ i =>
      have later := ih i (by simpa using inside)
      simp only [modify_succ_cons, countP_cons, getD_cons_succ]
      omega

theorem map_modify {β : Type*} (g : KvCell → β) {f : KvCell → KvCell}
    (same : ∀ cell, g (f cell) = g cell) (cells : List KvCell) (i : Nat) :
    (cells.modify i f).map g = cells.map g := by
  refine ext_getElem (by simp) fun k _ _ => ?_
  simp only [getElem_map, getElem_modify]
  split
  · exact same _
  · rfl

theorem read_modifyCell {β : Type*} (g : KvCell → β) {f : KvCell → KvCell}
    (same : ∀ cell, g (f cell) = g cell) (c : KvCache) (i j : Nat) :
    g ((c.modifyCell i f).cell j) = g (c.cell j) :=
  getD_congr_map g (map_modify g same c.cells i) j

theorem modifyCell_modifyCell (c : KvCache) (i : Nat) (f g : KvCell → KvCell) :
    (c.modifyCell i f).modifyCell i g = c.modifyCell i (g ∘ f) := by
  simp [KvCache.modifyCell, modify_modify_eq]

theorem seqIdFits_iff : c.seqIdFits a = true ↔ 0 ≤ a ∧ a < c.size := by
  simp [KvCache.seqIdFits]

theorem KvCache.Sources.fits_sourceOf (sources : c.Sources) (fitsA : c.seqIdFits a = true) :
    c.seqIdFits (c.sourceOf a) = true := by
  obtain ⟨nonneg, below⟩ := seqIdFits_iff.mp fitsA
  exact sources.fits _ (by omega)

theorem seqCp_recurrent (p0 p1 : Int) (sources : c.Sources) (fitsA : c.seqIdFits a = true)
    (fitsB : c.seqIdFits b = true) : ∃ f : KvCell → KvCell,
    kvCacheSeqCp c a b p0 p1 = some { c.modifyCell b.toNat f with doCopy := true } ∧
      ∀ cell, (f cell).src = c.sourceOf a ∧
        (b ∈ (f cell).seqId ↔ c.sourceOf a ∈ (c.cell (c.sourceOf a).toNat).seqId) ∧
        (f cell).pos = (c.cell (c.sourceOf a).toNat).pos := by
  have fits := sources.fits_sourceOf fitsA
  unfold KvCache.sourceOf at fits
  simp only [kvCacheSeqCp, sources.recurrent, kvCacheSeqCpRecurrent, fitsA, fitsB, fits,
    KvCell.hasSeqId, decide_eq_true_eq, modifyCell_modifyCell]
  -- the source is read again after its own cell may have been written
  refine ⟨_, rfl, fun cell => ⟨rfl, ?_, ?_⟩⟩
  · have seqIds : _ = (c.cell (c.cell a.toNat).src.toNat).seqId := read_modifyCell KvCell.seqId
      (f := fun cell => { cell with src := (c.cell a.toNat).src }) (fun _ => rfl) c b.toNat _
    rw [KvCache.sourceOf, ← seqIds]
    split
    · rename_i present
      exact iff_of_true (Finset.mem_insert_self _ _) present
    · rename_i absent
      exact iff_of_false (Finset.notMem_erase _ _) absent
  · refine read_modifyCell KvCell.pos ?_ c _ _
    exact fun _ => rfl

theorem seqCp_outside (sources : c.Sources)
    (outside : ¬ (c.seqIdFits a = true ∧ c.seqIdFits b = true)) :
    kvCacheSeqCp c a b p0 p1 = some c := by
  have fails : ¬ (c.seqIdFits b && c.seqIdFits a) = true := by
    simpa [and_comm] using outside
  simp only [kvCacheSeqCp, sources.recurrent, if_true, kvCacheSeqCpRecurrent, if_neg fails]

section Scan

variable {pos : Int} {s : RecurrentScan}

theorem recurrentSeqs_src (pos : Int) (ids : List Int) (s : RecurrentScan) :
    (recurrentSeqs pos ids s).2.cells.map KvCell.src = s.cells.map KvCell.src := by
  induction ids generalizing s with
  | nil => rfl
  | cons id ids ih =>
    rw [recurrentSeqs]
    split
    · refine (ih _).trans (map_modify KvCell.src ?_ s.cells _)
      exact fun _ => rfl
    · rfl

theorem recurrentSeqs_used (nonneg : 0 ≤ pos) (ids : List Int)
    (exact_ : s.used = s.cells.countP KvCell.placed) :
    (recurrentSeqs pos ids s).2.used = (recurrentSeqs pos ids s).2.cells.countP KvCell.placed := by
  induction ids generalizing s with
  | nil => exact exact_
  | cons id ids ih =>
    rw [recurrentSeqs]
    split
    · refine ih ?_
      have count := countP_modify (p := KvCell.placed) s.cells id.toNat
        (fun cell => { cell with pos := pos }) (by omega)
      dsimp only
      have now : KvCell.placed { s.cells.getD id.toNat {} with pos := pos } = true := by
        simpa [KvCell.placed] using nonneg
      rw [now, KvCell.placed] at count
      by_cases free : (s.cells.getD id.toNat {}).pos < 0
      · simp only [decide_eq_false (not_le.mpr free), Bool.toNat_false, Bool.toNat_true] at count
        omega
      · simp only [decide_eq_true (not_lt.mp free)] at count
        omega
    · exact exact_

theorem recurrentTokens_src (toks : List BatchToken) (s : RecurrentScan) :
    (recurrentTokens toks s).2.cells.map KvCell.src = s.cells.map KvCell.src := by
  induction toks generalizing s with
  | nil => rfl
  | cons tok toks ih =>
    have seqs := recurrentSeqs_src tok.pos tok.seqIds s
    rw [recurrentTokens]
    split
    · rename_i found
      rw [found] at seqs
      exact (ih _).trans seqs
    · rename_i found
      rw [found] at seqs
      exact seqs

theorem recurrentTokens_used {toks : List BatchToken} (nonneg : ∀ tok ∈ toks, 0 ≤ tok.pos)
    (exact_ : s.used = s.cells.countP KvCell.placed) :
    (recurrentTokens toks s).2.used = (recurrentTokens toks s).2.cells.countP KvCell.placed := by
  induction toks generalizing s with
  | nil => exact exact_
  | cons tok toks ih =>
    have seqs := recurrentSeqs_used (nonneg tok mem_cons_self) tok.seqIds exact_
    rw [recurrentTokens]
    split
    · rename_i found
      rw [found] at seqs
      exact ih (fun tok member => nonneg tok (mem_cons_of_mem _ member)) seqs
    · rename_i found
      rw [found] at seqs
      exact seqs

end Scan

theorem findSlotRecurrent_cells (c : KvCache) (batch : Batch) :
    let s := (recurrentTokens batch.tokens
      { cells := c.cells, used := c.used, min := c.size - 1, max := 0 }).2
    (findSlotRecurrent c batch).2.cells = s.cells ∧ (findSlotRecurrent c batch).2.used = s.used ∧
      (findSlotRecurrent c batch).2.recurrent = c.recurrent := by
  unfold findSlotRecurrent
  split
  · rename_i found
    rw [found]
    exact ⟨rfl, rfl, rfl⟩
  · rename_i found
    rw [found]
    exact ⟨rfl, rfl, rfl⟩

theorem kvCacheSeqRm_cells {seqId : Int} {done : Bool}
    (stepped : kvCacheSeqRm c seqId p0 p1 = some (done, c')) :
    c' = c ∨
      let s := c.sweep (seqRmVisit c.hasQnextStateStorage seqId (rangeLow p0) (rangeHigh p1))
      c'.cells = s.cells ∧ c'.used = s.used ∧ c'.recurrent = c.recurrent := by
  simp only [kvCacheSeqRm] at stepped
  split at stepped
  · cases stepped
    exact Or.inl rfl
  · split at stepped
    · cases stepped
    · cases stepped
      exact Or.inl rfl
    · cases stepped
      exact Or.inr ⟨rfl, rfl, rfl⟩
    · cases stepped
      exact Or.inr ⟨rfl, rfl, rfl⟩

theorem KvCache.Sources.of_src (sources : c.Sources) (recurrent : c'.recurrent = c.recurrent)
    (same : c'.cells.map KvCell.src = c.cells.map KvCell.src) : c'.Sources := by
  have size : c'.size = c.size := by simpa [KvCache.size] using congrArg List.length same
  refine ⟨recurrent.trans sources.recurrent, fun i inside => ?_⟩
  rw [KvCache.cell, getD_congr_map KvCell.src same, KvCache.seqIdFits, size]
  exact sources.fits i (size ▸ inside)

theorem KvCache.Sources.of_visit (sources : c.Sources) (recurrent : c'.recurrent = c.recurrent)
    {visit : Nat → KvCell → KvCell} (cells : c'.cells = c.cells.mapIdx visit)
    (src : ∀ i cell, (visit i cell).src = cell.src ∨ (visit i cell).src = i) : c'.Sources := by
  have size : c'.size = c.size := by simp [KvCache.size, cells]
  refine ⟨recurrent.trans sources.recurrent, fun i inside => ?_⟩
  have old := sources.fits i (size ▸ inside)
  have here : c'.cell i = visit i (c.cell i) := by
    have inside' : i < c.cells.length := lt_of_lt_of_eq inside size
    simp [KvCache.cell, cells, inside']
  rw [here, KvCache.seqIdFits, size]
  rcases src i (c.cell i) with kept | reset
  · rw [kept]
    exact old
  · rw [reset]
    simpa [← size] using inside

theorem seqRmVisit_src (q : Bool) (seqId p0 p1 : Int) (i : Nat) (cell : KvCell) :
    (seqRmVisit q seqId p0 p1 i cell).cell.src = cell.src ∨
      (seqRmVisit q seqId p0 p1 i cell).cell.src = i := by
  simp only [seqRmVisit]
  split_ifs
  · cases q
    · exact Or.inl rfl
    · exact Or.inr rfl
  · exact Or.inl rfl
  · exact Or.inl rfl

theorem seqKeepVisit_src (q : Bool) (seqId : Int) (i : Nat) (cell : KvCell) :
    (seqKeepVisit q seqId i cell).cell.src = cell.src ∨
      (seqKeepVisit q seqId i cell).cell.src = i := by
  simp only [seqKeepVisit]
  split_ifs
  · exact Or.inl rfl
  · cases q
    · exact Or.inl rfl
    · exact Or.inr rfl

theorem seqRmVisit_placed (q : Bool) (seqId p0 p1 : Int) (i : Nat) (cell : KvCell) :
    (seqRmVisit q seqId p0 p1 i cell).cell.placed.toNat +
      (seqRmVisit q seqId p0 p1 i cell).unused.toNat = cell.placed.toNat := by
  simp only [seqRmVisit]
  split_ifs
  · simp [KvCell.placed, KvCell.release]
  · rfl
  · rfl

theorem seqKeepVisit_placed (q : Bool) (seqId : Int) (i : Nat) (cell : KvCell) :
    (seqKeepVisit q seqId i cell).cell.placed.toNat +
      (seqKeepVisit q seqId i cell).unused.toNat = cell.placed.toNat := by
  simp only [seqKeepVisit]
  split_ifs
  · rfl
  · simp [KvCell.placed, KvCell.release]

theorem recurrentStep_sources {op : RecurrentOp} (sources : c.Sources)
    (stepped : recurrentStep c op = some c') : c'.Sources := by
  cases op with
  | findSlot batch =>
    cases stepped
    obtain ⟨cells, -, recurrent⟩ := findSlotRecurrent_cells c batch
    exact sources.of_src recurrent (by rw [cells]; exact recurrentTokens_src _ _)
  | setInputs =>
    cases stepped
    refine sources.of_visit rfl rfl fun i cell => Or.inl ?_
    split <;> rfl
  | update =>
    cases stepped
    unfold applyStateCopy
    split
    · exact sources.of_visit rfl rfl fun i cell => Or.inr rfl
    · exact sources
  | seqCp a b p0 p1 =>
    by_cases fits : c.seqIdFits a = true ∧ c.seqIdFits b = true
    · obtain ⟨f, copied, spec⟩ := seqCp_recurrent p0 p1 sources fits.1 fits.2
      obtain rfl := some.inj (stepped.symm.trans copied)
      have size : c.size = (c.cells.modify b.toNat f).length := by simp [KvCache.size]
      refine ⟨sources.recurrent, fun i inside => ?_⟩
      have old := sources.fits i (size ▸ inside)
      have inRange : ∀ id, c.seqIdFits id = true →
          KvCache.seqIdFits { c.modifyCell b.toNat f with doCopy := true } id = true := by
        intro id fitsId
        rw [KvCache.seqIdFits, KvCache.size, KvCache.modifyCell, ← size]
        exact fitsId
      by_cases here : b.toNat = i
      · subst i
        have written : (KvCache.cell { c.modifyCell b.toNat f with doCopy := true } b.toNat) =
            f (c.cell b.toNat) := getD_modify_self _ _ _ (lt_of_lt_of_eq inside size.symm)
        rw [written, (spec _).1]
        exact inRange _ (sources.fits_sourceOf fits.1)
      · have kept : (KvCache.cell { c.modifyCell b.toNat f with doCopy := true } i) =
            c.cell i := getD_modify_ne _ _ _ _ here
        rw [kept]
        exact inRange _ old
    · rw [recurrentStep, seqCp_outside sources fits] at stepped
      obtain rfl := some.inj stepped
      exact sources
  | seqRm seqId p0 p1 =>
    obtain ⟨⟨done, after⟩, removed, rfl⟩ := map_eq_some_iff.mp stepped
    rcases kvCacheSeqRm_cells removed with rfl | ⟨cells, -, recurrent⟩
    · exact sources
    · exact sources.of_visit recurrent (cells.trans (c.sweep_cells _)) fun i cell =>
        seqRmVisit_src _ _ _ _ i cell
  | seqKeep seqId =>
    cases stepped
    exact sources.of_visit rfl (c.sweep_cells _) fun i cell => seqKeepVisit_src _ _ i cell

theorem countP_mapIdx {visit : Nat → KvCell → KvCell}
    (same : ∀ i cell, (visit i cell).pos = cell.pos) (cells : List KvCell) :
    (cells.mapIdx visit).countP KvCell.placed = cells.countP KvCell.placed := by
  induction cells generalizing visit with
  | nil => rfl
  | cons cell rest ih =>
    simp only [mapIdx_cons, countP_cons]
    rw [ih fun i cell => same (i + 1) cell, KvCell.placed, KvCell.placed, same]

theorem seqCp_used (sources : c.Sources) (exact_ : c.UsedExact)
    (keeps : (RecurrentOp.seqCp a b p0 p1).KeepsPlaces c)
    (stepped : kvCacheSeqCp c a b p0 p1 = some c') : c'.UsedExact := by
  by_cases fits : c.seqIdFits a = true ∧ c.seqIdFits b = true
  · obtain ⟨f, copied, spec⟩ := seqCp_recurrent p0 p1 sources fits.1 fits.2
    obtain rfl := some.inj (stepped.symm.trans copied)
    obtain ⟨nonneg, below⟩ := seqIdFits_iff.mp fits.2
    have inside : b.toNat < c.cells.length := by
      simp only [KvCache.size] at below
      omega
    have count := countP_modify (p := KvCell.placed) c.cells b.toNat f inside
    have same : (f (c.cells.getD b.toNat {})).placed = (c.cells.getD b.toNat {}).placed := by
      rw [KvCell.placed, (spec _).2.2]
      exact keeps fits.1 fits.2
    rw [same] at count
    change c.used = ((c.cells.modify b.toNat f).countP KvCell.placed : Int)
    rw [exact_]
    omega
  · rw [seqCp_outside sources fits] at stepped
    obtain rfl := some.inj stepped
    exact exact_

theorem recurrentStep_used {op : RecurrentOp} (sources : c.Sources) (exact_ : c.UsedExact)
    (keeps : op.KeepsPlaces c) (stepped : recurrentStep c op = some c') : c'.UsedExact := by
  cases op with
  | findSlot batch =>
    cases stepped
    obtain ⟨cells, used, -⟩ := findSlotRecurrent_cells c batch
    rw [KvCache.UsedExact, cells, used]
    exact recurrentTokens_used keeps exact_
  | setInputs =>
    cases stepped
    refine exact_.trans (congrArg Nat.cast (countP_mapIdx (fun i cell => ?_) c.cells).symm)
    split <;> rfl
  | update =>
    cases stepped
    unfold applyStateCopy
    split
    · refine exact_.trans (congrArg Nat.cast (countP_mapIdx ?_ c.cells).symm)
      exact fun i cell => rfl
    · exact exact_
  | seqCp a b p0 p1 => exact seqCp_used sources exact_ keeps stepped
  | seqRm seqId p0 p1 =>
    obtain ⟨⟨done, after⟩, removed, rfl⟩ := map_eq_some_iff.mp stepped
    rcases kvCacheSeqRm_cells removed with rfl | ⟨cells, used, -⟩
    · exact exact_
    · rw [KvCache.UsedExact, cells, used]
      exact c.sweep_used _ exact_ fun j cell _ => seqRmVisit_placed _ _ _ _ j cell
  | seqKeep seqId =>
    cases stepped
    exact c.sweep_used _ exact_ fun j cell _ => seqKeepVisit_placed _ _ j cell

variable {cfg : KvConfig} {kvSize : Nat}

theorem kvCacheInit_sources (recurrent : cfg.recurrent = true) :
    (kvCacheInit cfg kvSize).Sources := by
  refine ⟨recurrent, fun i inside => seqIdFits_iff.mpr ?_⟩
  have below : i < kvSize := by simpa [KvCache.size, kvCacheInit] using inside
  simp [KvCache.cell, kvCacheInit, recurrent, KvCache.size, below]

theorem kvCacheInit_used : (kvCacheInit cfg kvSize).UsedExact := by
  have none_ : (kvCacheInit cfg kvSize).cells.countP KvCell.placed = 0 := by
    refine countP_eq_zero.mpr fun cell member => ?_
    obtain ⟨i, -, rfl⟩ := mem_map.mp member
    split <;> simp [KvCell.placed]
  rw [KvCache.UsedExact, none_]
  rfl

theorem sources_of_run {ok : KvCache → RecurrentOp → Prop} (recurrent : cfg.recurrent = true)
    (run : Reaches recurrentStep ok (kvCacheInit cfg kvSize) c) : c.Sources :=
  run.invariant KvCache.Sources (kvCacheInit_sources recurrent)
    fun _ _ _ sources _ stepped => recurrentStep_sources sources stepped

theorem seqCp_present (sources : c.Sources) (fitsA : c.seqIdFits a = true)
    (fitsB : c.seqIdFits b = true) (p0 p1 : Int) : ∃ c', kvCacheSeqCp c a b p0 p1 = some c' ∧
      ((c'.Present b ∧ (c'.cell b.toNat).pos = (c.cell a.toNat).pos) ↔ c.SourceStands a) := by
  obtain ⟨f, copied, spec⟩ := seqCp_recurrent p0 p1 sources fitsA fitsB
  obtain ⟨nonneg, below⟩ := seqIdFits_iff.mp fitsB
  have inside : b.toNat < c.cells.length := by
    simp only [KvCache.size] at below
    omega
  have written : (KvCache.cell { c.modifyCell b.toNat f with doCopy := true } b.toNat) =
      f (c.cell b.toNat) := getD_modify_self _ _ _ inside
  have fits : KvCache.seqIdFits { c.modifyCell b.toNat f with doCopy := true } b = true := by
    rw [seqIdFits_iff, KvCache.size, KvCache.modifyCell, length_modify]
    exact ⟨nonneg, below⟩
  refine ⟨_, copied, ?_⟩
  rw [KvCache.Present, written, (spec _).2.1, (spec _).2.2]
  exact ⟨fun both => ⟨both.1.2, both.2⟩, fun both => ⟨⟨fits, both.1⟩, both.2⟩⟩

/-- In a run in which batches have positions and no copy changes whether its target has one,
`used` is the number of cells with a position.  In any run a copy of a present sequence is
present at its position exactly when the recorded source is. -/
theorem recurrent_runs (recurrent : cfg.recurrent = true) :
    (∀ c, Reaches recurrentStep (fun c op => op.KeepsPlaces c) (kvCacheInit cfg kvSize) c →
      c.used = c.cells.countP (fun cell => decide (0 ≤ cell.pos)) ∧ 0 ≤ c.used) ∧
    ∀ c, Reaches recurrentStep (fun _ _ => True) (kvCacheInit cfg kvSize) c →
      ∀ a b p0 p1, c.Present a → c.seqIdFits b = true →
        ∃ c', kvCacheSeqCp c a b p0 p1 = some c' ∧
          ((c'.Present b ∧ (c'.cell b.toNat).pos = (c.cell a.toNat).pos) ↔ c.SourceStands a) := by
  constructor
  · intro c run
    have both : c.Sources ∧ c.UsedExact := run.invariant (fun c => c.Sources ∧ c.UsedExact)
      ⟨kvCacheInit_sources recurrent, kvCacheInit_used⟩
      fun _ _ _ before keeps stepped => ⟨recurrentStep_sources before.1 stepped,
        recurrentStep_used before.1 before.2 keeps stepped⟩
    have exact_ : c.used = c.cells.countP fun cell => decide (0 ≤ cell.pos) := both.2
    exact ⟨exact_, exact_ ▸ Int.natCast_nonneg _⟩
  · intro c run a b p0 p1 present fitsB
    exact seqCp_present (sources_of_run recurrent run) present.1 fitsB p0 p1

def oneToken : Batch where
  tokens := [{ token := 1, pos := 0, seqIds := [0] }]

def heldFirst : KvCache :=
  keepCurrentSeqs (findSlotRecurrent (kvCacheInit { recurrent := true } 3) oneToken).2

theorem heldFirst_reached {ok : KvCache → RecurrentOp → Prop}
    (found : ∀ c, ok c (.findSlot oneToken)) (kept : ∀ c, ok c .setInputs) :
    Reaches recurrentStep ok (kvCacheInit { recurrent := true } 3) heldFirst :=
  (Reaches.refl.tail (found _) rfl).tail (kept _) rfl

/-- Sequence 0 has the only position, and a copy of it is present. -/
theorem recurrent_runs_at_heldFirst :
    heldFirst.used = heldFirst.cells.countP (fun cell => decide (0 ≤ cell.pos)) ∧
      ∃ c', kvCacheSeqCp heldFirst 0 1 0 (-1) = some c' ∧ c'.Present 1 := by
  have nonneg : ∀ tok ∈ oneToken.tokens, 0 ≤ tok.pos := by decide
  have runs := @recurrent_runs { recurrent := true } 3 rfl
  refine ⟨(runs.1 _ (heldFirst_reached (fun _ => nonneg) fun _ => trivial)).1, ?_⟩
  obtain ⟨c', copied, present⟩ := runs.2 _ (heldFirst_reached (fun _ => trivial) fun _ => trivial)
    0 1 0 (-1) (by unfold KvCache.Present; decide +kernel) (by decide +kernel)
  exact ⟨c', copied, (present.mpr (by unfold KvCache.SourceStands; decide +kernel)).1⟩

def fromHeldFirst (ops : List RecurrentOp) : Option KvCache :=
  runChecked recurrentStep (fun _ _ => True) heldFirst ops

/-- A copy of sequence 0 leaves `used` at one, so that it falls below zero when both are
removed; and after sequence 0 is removed, its copy cannot be copied on. -/
theorem recurrent_copy_uncounted :
    ¬ ∀ c, Reaches recurrentStep (fun _ _ => True) (kvCacheInit { recurrent := true } 3) c →
      c.used = c.cells.countP (fun cell => decide (0 ≤ cell.pos)) ∧ 0 ≤ c.used ∧
        ∀ a b, c.Present a → c.seqIdFits b = true → ∃ c', kvCacheSeqCp c a b 0 (-1) = some c' ∧
          c'.Present b ∧ (c'.cell b.toNat).pos = (c.cell a.toNat).pos := by
  intro claimed
  have copied : fromHeldFirst [.seqCp 0 1 0 (-1), .seqRm 0 (-1) (-1), .seqRm 1 (-1) (-1)] =
      some ((fromHeldFirst [.seqCp 0 1 0 (-1), .seqRm 0 (-1) (-1), .seqRm 1 (-1) (-1)]).get
        (by decide +kernel)) := (some_get _).symm
  have held := @heldFirst_reached (fun _ _ => True) (fun _ => trivial) fun _ => trivial
  have nonneg := (claimed _ (held.trans (reaches_of_runChecked _ _ _ copied))).2.1
  revert nonneg
  decide +kernel

/-- A copy whose source was removed is present, and its own copy is not. -/
example : ((fromHeldFirst [.seqCp 0 1 0 (-1), .seqRm 0 (-1) (-1), .seqCp 1 2 0 (-1)]).map
    fun c => ((c.cell 1).seqId, (c.cell 2).seqId, (c.cell 2).pos)) = some ({1}, ∅, -1) := by
  decide +kernel

end LlamaCpp.Kv
