import LlamaCpp.Kv.EntryRuns

/-!
# Compacted sliding-window layers

A compacted layer holds only the last positions of the sequence, in the rows from
`sinkRows` on; position `p` is in row `sinkRows + p - posBaseSwa`.  A decode that does not
fit any more first moves the last `windowSwa` positions to the front.  The rows stand for
what all compacted layers hold for one position, keys and values together.
-/

set_option autoImplicit false

namespace LlamaCpp.Kv

open LlamaCpp.Lib List

variable {Row : Type*}

def swaCompactRows (window pad nUbatch sinkRows : Nat) : Nat :=
  let slack := if 256 < nUbatch then nUbatch else 256
  let unpadded := sinkRows + window + slack
  if 1 < pad then (unpadded + pad - 1) / pad * pad else unpadded

/-- What `llama_kv_cache_init` takes for a cache with compacted layers. -/
structure SwaConfig where
  kv : KvConfig := {}
  kvSize : Nat
  nSwa : Nat
  pad : Nat
  nUbatch : Nat
  sinkRows : Nat := 0

namespace SwaConfig

variable (cfg : SwaConfig)

def sizeSwa : Nat := swaCompactRows cfg.nSwa cfg.pad cfg.nUbatch cfg.sinkRows

def capacity : Nat :=
  if 1 < cfg.pad then (cfg.sizeSwa - cfg.sinkRows) / cfg.pad * cfg.pad
  else cfg.sizeSwa - cfg.sinkRows

end SwaConfig

structure SwaCache (Row : Type*) where
  kv : KvCache
  rows : Nat → Row

/-- The cache `llama_kv_cache_init` leaves. -/
def swaCacheInit (cfg : SwaConfig) (rows : Nat → Row) : SwaCache Row where
  kv := { kvCacheInit { cfg.kv with recurrent := false } cfg.kvSize with
    compacted := true
    sinkRows := cfg.sinkRows
    windowSwa := cfg.nSwa
    headSwa := cfg.sinkRows
    posBaseSwa := 0 }
  rows := rows

/-- The copies of `llama_kv_cache_compact_swa`: `count` rows, all read before any is
written. -/
def copyRows (rows : Nat → Row) (src dst count : Nat) : Nat → Row :=
  fun row => if dst ≤ row ∧ row < dst + count then rows (src + (row - dst)) else rows row

def kvCacheCompactSwa (cfg : SwaConfig) (c : SwaCache Row) (nTokens : Nat) :
    Option (SwaCache Row) :=
  let window := c.kv.windowSwa
  let live := c.kv.liveSwa
  if cfg.capacity < nTokens then none
  else if live + nTokens ≤ cfg.capacity then some c
  else if live < window then none
  else
    some
      { kv := { c.kv with
          posBaseSwa := c.kv.posBaseSwa + (live - window : Nat)
          headSwa := c.kv.sinkRows + window }
        rows := copyRows c.rows (c.kv.sinkRows + live - window) c.kv.sinkRows window }

def writeRows (rows : Nat → Row) (head nTokens : Nat) (data : Nat → Row) : Nat → Row :=
  fun row => if head ≤ row ∧ row < head + nTokens then data (row - head) else rows row

/-- A decode step that finds a slot.  The assertion at its end, that `head_swa` is at most
`size_swa`, is left to be proved. -/
def decodeSwa (cfg : SwaConfig) (c : SwaCache Row) (batch : Batch) (embdToken : Int)
    (data : Nat → Row) : Option (SwaCache Row) :=
  let nTokens := batch.tokens.length
  match kvCacheFindSlot (searchFromStart c.kv nTokens) batch embdToken with
  | (false, _) => none
  | (true, placed) =>
    (kvCacheCompactSwa cfg { c with kv := placed } nTokens).map fun compacted =>
      { kv := { advanceHead compacted.kv nTokens with
          headSwa := compacted.kv.headSwa + nTokens }
        rows := writeRows compacted.rows compacted.kv.headSwa nTokens data }

inductive SwaOp (Row : Type*)
  | decode (batch : Batch) (embdToken : Int) (data : Nat → Row)
  | seqRm (p0 p1 : Int)

structure SwaTracked (Row : Type*) where
  cache : SwaCache Row
  data : Nat → Row

def storedPositions (cells : List KvCell) : List Int :=
  (cells.filter fun cell => !cell.isEmpty).map KvCell.pos

def KvCache.stored (c : KvCache) : Nat := (storedPositions c.cells).length

def SwaTracked.step (cfg : SwaConfig) (t : SwaTracked Row) : SwaOp Row → Option (SwaTracked Row)
  | .decode batch embdToken data =>
    (decodeSwa cfg t.cache batch embdToken data).map fun cache =>
      ⟨cache, fun p => if t.cache.kv.stored ≤ p then data (p - t.cache.kv.stored) else t.data p⟩
  | .seqRm p0 p1 =>
    match kvCacheSeqRm t.cache.kv 0 p0 p1 with
    | some (true, kv) => some ⟨{ t.cache with kv := kv }, t.data⟩
    | _ => none

/-- The batch goes on from the last position, and the range removes the positions from some
`keep` on. -/
def SwaTracked.Allows (cfg : SwaConfig) (t : SwaTracked Row) : SwaOp Row → Prop
  | .decode batch _ _ =>
    batch.tokens.length ≤ cfg.nUbatch ∧
    (∀ tok ∈ batch.tokens, tok.seqIds = [0]) ∧
    batch.tokens.map BatchToken.pos =
      (List.range batch.tokens.length).map fun i : Nat => (t.cache.kv.stored + i : Int)
  | .seqRm p0 p1 =>
    ∃ keep : Nat, keep ≤ t.cache.kv.stored ∧ ∀ pos : Int, 0 ≤ pos → pos < t.cache.kv.stored →
      ((rangeLow p0 ≤ pos ∧ pos < rangeHigh p1) ↔ (keep : Int) ≤ pos)

/-- The counters and rows of a cache that holds the positions below `stored`. -/
structure WindowMap (cfg : SwaConfig) (c : SwaCache Row) (data : Nat → Row) (stored : Nat) :
    Prop where
  sink : c.kv.sinkRows = cfg.sinkRows
  window : c.kv.windowSwa = cfg.nSwa
  low : c.kv.sinkRows ≤ c.kv.headSwa
  high : c.kv.headSwa ≤ cfg.sizeSwa
  base : 0 ≤ c.kv.posBaseSwa
  counted : c.kv.posBaseSwa + c.kv.liveSwa = stored
  retained : c.kv.posBaseSwa = 0 ∨ c.kv.windowSwa ≤ c.kv.liveSwa
  rows : ∀ p : Nat, c.kv.posBaseSwa ≤ p → p < stored →
    c.rows (c.kv.sinkRows + (p - c.kv.posBaseSwa).toNat) = data p

section Map

variable {cfg : SwaConfig} {c : SwaCache Row} {data : Nat → Row} {stored : Nat}

theorem SwaConfig.room (cfg : SwaConfig) :
    cfg.sinkRows + cfg.nSwa + cfg.nUbatch ≤ cfg.sizeSwa := by
  have slack : cfg.nUbatch ≤ if 256 < cfg.nUbatch then cfg.nUbatch else 256 := by
    split
    · exact le_refl _
    · omega
  simp only [SwaConfig.sizeSwa, swaCompactRows]
  generalize (if 256 < cfg.nUbatch then cfg.nUbatch else 256) = rows at slack
  by_cases padded : 1 < cfg.pad
  · rw [if_pos padded]
    have positive : 0 < cfg.pad := by omega
    have rounded := Nat.lt_div_mul_add (a := cfg.sinkRows + cfg.nSwa + rows + cfg.pad - 1) positive
    omega
  · rw [if_neg padded]
    omega

theorem SwaConfig.capacity_le (cfg : SwaConfig) : cfg.sinkRows + cfg.capacity ≤ cfg.sizeSwa := by
  have room := cfg.room
  unfold SwaConfig.capacity
  split
  · have := Nat.div_mul_le_self (cfg.sizeSwa - cfg.sinkRows) cfg.pad
    omega
  · omega

theorem WindowMap.compact (map : WindowMap cfg c data stored) {nTokens : Nat}
    (ubatch : nTokens ≤ cfg.nUbatch) {after : SwaCache Row}
    (compacted : kvCacheCompactSwa cfg c nTokens = some after) :
    WindowMap cfg after data stored ∧ after.kv.headSwa + nTokens ≤ cfg.sizeSwa ∧
      ∃ headSwa base, after.kv = { c.kv with headSwa := headSwa, posBaseSwa := base } := by
  have capacity := cfg.capacity_le
  have room := cfg.room
  have counted := map.counted
  have base := map.base
  have sink := map.sink
  have window := map.window
  simp only [kvCacheCompactSwa] at compacted
  split at compacted
  · cases compacted
  · split at compacted
    · rename_i fits
      obtain rfl : c = after := Option.some.inj compacted
      simp only [KvCache.liveSwa] at fits
      exact ⟨map, by omega, c.kv.headSwa, c.kv.posBaseSwa, rfl⟩
    · split at compacted
      · cases compacted
      · rename_i enough
        have wide : c.kv.windowSwa ≤ c.kv.liveSwa := not_lt.mp enough
        obtain rfl := Option.some.inj compacted
        refine ⟨⟨sink, window, Nat.le_add_right _ _, ?_, ?_, ?_, .inr ?_, ?_⟩, ?_, _, _, rfl⟩
        · simp only
          omega
        · simp only
          omega
        · simp only [KvCache.liveSwa] at wide counted ⊢
          omega
        · simp only [KvCache.liveSwa]
          omega
        · intro p above below
          simp only at above
          have old := map.rows p (by omega) below
          simp only [copyRows]
          rw [if_pos (by omega), ← old]
          congr 1
          omega
        · simp only
          omega

theorem WindowMap.write (map : WindowMap cfg c data stored) {nTokens : Nat}
    (fits : c.kv.headSwa + nTokens ≤ cfg.sizeSwa) (new : Nat → Row) (head : Nat) :
    WindowMap cfg
      { kv := { c.kv with head := head, headSwa := c.kv.headSwa + nTokens }
        rows := writeRows c.rows c.kv.headSwa nTokens new }
      (fun p => if stored ≤ p then new (p - stored) else data p) (stored + nTokens) := by
  have low := map.low
  have counted := map.counted
  have base := map.base
  simp only [KvCache.liveSwa] at counted
  refine ⟨map.sink, map.window, ?_, fits, base, ?_, ?_, ?_⟩
  · exact le_trans low (Nat.le_add_right _ _)
  · simp only [KvCache.liveSwa]
    omega
  · refine map.retained.imp id fun wide => ?_
    simp only [KvCache.liveSwa] at wide ⊢
    omega
  · intro p above below
    simp only at above ⊢
    by_cases fresh : stored ≤ p
    · rw [if_pos fresh, writeRows, if_pos (by omega)]
      congr 1
      omega
    · rw [if_neg fresh, writeRows, if_neg (by omega)]
      exact map.rows p above (not_le.mp fresh)

theorem compactRm_cases {kv : KvCache} (compacted : kv.compacted = true) (p0 p1 : Int) :
    (compactRm kv 0 p0 p1 = .keep ∧
      ¬ (p0 < p1 ∧ p0 < kv.posBaseSwa + kv.liveSwa ∧ kv.posBaseSwa < p1) ∧
      (p0 < p1 → kv.liveSwa = 0 → kv.posBaseSwa = 0)) ∨
    compactRm kv 0 p0 p1 = .refuse ∨ compactRm kv 0 p0 p1 = .assertFailed ∨
    (p0 < p1 ∧ p0 < kv.posBaseSwa + kv.liveSwa ∧
      ((p0 = 0 ∧ compactRm kv 0 p0 p1 = .apply kv.sinkRows 0) ∨
        ((kv.posBaseSwa = 0 ∨ kv.posBaseSwa + kv.windowSwa ≤ p0) ∧
          compactRm kv 0 p0 p1 =
            .apply (kv.sinkRows + (p0 - kv.posBaseSwa).toNat) kv.posBaseSwa))) := by
  unfold compactRm
  by_cases range : p0 < p1
  · rw [if_pos (by simp [compacted, range])]
    by_cases failed : kv.liveSwa = 0 ∧ kv.posBaseSwa ≠ 0
    · rw [if_pos failed]
      exact .inr (.inr (.inl rfl))
    · rw [if_neg failed]
      have sound : kv.liveSwa = 0 → kv.posBaseSwa = 0 := by tauto
      by_cases hit : p0 < kv.posBaseSwa + kv.liveSwa ∧ kv.posBaseSwa < p1
      · rw [if_pos hit]
        split
        · exact .inr (.inl rfl)
        · split
          · rename_i zero
            exact .inr (.inr (.inr ⟨range, hit.1, .inl ⟨zero, rfl⟩⟩))
          · split
            · rename_i allowed
              exact .inr (.inr (.inr ⟨range, hit.1, .inr ⟨allowed, rfl⟩⟩))
            · exact .inr (.inl rfl)
      · rw [if_neg hit]
        exact .inl ⟨rfl, fun all => hit all.2, fun _ => sound⟩
  · rw [if_neg (by simp [range])]
    exact .inl ⟨rfl, fun all => range all.1, fun inside => absurd inside range⟩

theorem WindowMap.remove (map : WindowMap cfg c data stored)
    (compacted : c.kv.compacted = true) {p0 p1 : Int} (low0 : 0 ≤ p0) {keep : Nat}
    (kept : keep ≤ stored)
    (suffix : ∀ pos : Int, 0 ≤ pos → pos < stored →
      ((p0 ≤ pos ∧ pos < p1) ↔ (keep : Int) ≤ pos)) {kv : KvCache}
    (sameSink : kv.sinkRows = c.kv.sinkRows) (sameWindow : kv.windowSwa = c.kv.windowSwa)
    (carried : (compactRm c.kv 0 p0 p1 = .keep ∧ kv.headSwa = c.kv.headSwa ∧
        kv.posBaseSwa = c.kv.posBaseSwa) ∨
      compactRm c.kv 0 p0 p1 = .apply kv.headSwa kv.posBaseSwa) :
    WindowMap cfg { c with kv := kv } data keep := by
  have low := map.low
  have high := map.high
  have counted := map.counted
  have base := map.base
  have retained := map.retained
  have sink := sameSink.trans map.sink
  have window := sameWindow.trans map.window
  simp only [KvCache.liveSwa] at counted
  rcases compactRm_cases compacted p0 p1 with ⟨guard, missed, sound⟩ | guard | guard |
      ⟨range, inside, allowed⟩
  · -- the range misses the window, so it holds no stored position
    rcases carried with ⟨-, head, sameBase⟩ | applied
    · have all : keep = stored := by
        by_contra less
        have last := (suffix (stored - 1) (by omega) (by omega)).mpr (by omega)
        have notEmpty : c.kv.headSwa - c.kv.sinkRows ≠ 0 := by
          intro empty
          have zero := sound (by omega) empty
          omega
        refine missed ⟨by omega, ?_, ?_⟩
        · simp only [KvCache.liveSwa]
          omega
        · omega
      rw [all]
      refine ⟨sink, window, ?_, ?_, ?_, ?_, ?_, ?_⟩
      · simpa only [sameSink, head] using low
      · simpa only [head] using high
      · simpa only [sameBase] using base
      · simpa only [KvCache.liveSwa, sameSink, head, sameBase] using counted
      · simpa only [KvCache.liveSwa, sameSink, head, sameBase, sameWindow] using retained
      · simpa only [sameSink, sameBase] using map.rows
    · rw [guard] at applied
      cases applied
  · rcases carried with ⟨keeps, -⟩ | applied
    · rw [guard] at keeps
      cases keeps
    · rw [guard] at applied
      cases applied
  · rcases carried with ⟨keeps, -⟩ | applied
    · rw [guard] at keeps
      cases keeps
    · rw [guard] at applied
      cases applied
  · -- the range starts at a stored position, and that is the first one removed
    simp only [KvCache.liveSwa] at inside
    have first : p0 = keep := by
      have above := (suffix p0 low0 (by omega)).mp ⟨le_refl _, range⟩
      have below := (suffix keep (by omega) (by omega)).mpr (le_refl _)
      omega
    rcases allowed with ⟨zero, guard⟩ | ⟨wide, guard⟩
    · rcases carried with ⟨keeps, -⟩ | applied
      · rw [guard] at keeps
        cases keeps
      · rw [guard] at applied
        obtain ⟨head, newBase⟩ := CompactRm.apply.inj applied
        refine ⟨sink, window, ?_, ?_, ?_, ?_, .inl ?_, fun p _ below => ?_⟩
        · simp only
          omega
        · simp only
          omega
        · simp only
          omega
        · simp only [KvCache.liveSwa]
          omega
        · exact newBase.symm
        · omega
    · rcases carried with ⟨keeps, -⟩ | applied
      · rw [guard] at keeps
        cases keeps
      · rw [guard] at applied
        obtain ⟨head, newBase⟩ := CompactRm.apply.inj applied
        refine ⟨sink, window, ?_, ?_, ?_, ?_, ?_, fun p above below => ?_⟩
        · simp only
          omega
        · simp only
          omega
        · simp only
          omega
        · simp only [KvCache.liveSwa]
          omega
        · simp only [KvCache.liveSwa]
          omega
        · simp only at above
          rw [sameSink, ← newBase]
          exact map.rows p (by omega) (by omega)

end Map

theorem storedPositions_append (first second : List KvCell) :
    storedPositions (first ++ second) = storedPositions first ++ storedPositions second := by
  simp [storedPositions]

theorem storedPositions_cons (cell : KvCell) (rest : List KvCell) :
    storedPositions (cell :: rest) =
      if cell.isEmpty then storedPositions rest else cell.pos :: storedPositions rest := by
  cases empty : cell.isEmpty <;> simp [storedPositions, empty]

theorem storedPositions_placeTokens (env : PlaceEnv) (toks : List BatchToken)
    (best : Int → Option Int) (cells : List KvCell) (fits : toks.length ≤ cells.length)
    (free : ∀ cell ∈ cells.take toks.length, cell.seqId = ∅)
    (valid : ∀ tok ∈ toks, tok.seqIds ≠ []) :
    storedPositions (placeTokens env best cells toks) =
      toks.map BatchToken.pos ++ storedPositions cells := by
  induction toks generalizing best cells with
  | nil => simp [placeTokens]
  | cons tok toks ih =>
    cases cells with
    | nil => simp at fits
    | cons old cells =>
      have empty : old.isEmpty = true := by
        rw [KvCell.isEmpty_iff]
        exact free old (by simp)
      have placed : (placeCell env best old tok).isEmpty = false := by
        rw [KvCell.isEmpty_false_iff]
        obtain ⟨id, inside⟩ := exists_mem_of_ne_nil _ (valid tok mem_cons_self)
        exact ⟨id, by simp [placeCell, inside]⟩
      simp only [placeTokens, storedPositions_cons, empty, placed]
      rw [ih _ cells (by simpa using fits) (fun cell inside => free cell (by simp [inside]))
        (fun other inside => valid other (mem_cons_of_mem _ inside))]
      rfl

def OneSequence (cells : List KvCell) : Prop := ∀ cell ∈ cells, cell.seqId ⊆ {0}

theorem placeTokens_oneSequence (env : PlaceEnv) (toks : List BatchToken)
    (best : Int → Option Int) (cells : List KvCell) (one : OneSequence cells)
    (ids : ∀ tok ∈ toks, tok.seqIds = [0]) : OneSequence (placeTokens env best cells toks) := by
  induction toks generalizing best cells with
  | nil => simpa [placeTokens] using one
  | cons tok toks ih =>
    cases cells with
    | nil => simp [placeTokens, OneSequence]
    | cons old cells =>
      intro cell member
      simp only [placeTokens, mem_cons] at member
      rcases member with here | later
      · rw [here, placeCell, ids tok mem_cons_self]
        exact Finset.union_subset (one old mem_cons_self) (by simp)
      · exact ih _ cells (fun other inside => one other (mem_cons_of_mem _ inside))
          (fun other inside => ids other (mem_cons_of_mem _ inside)) cell later

theorem seqRmVisit_oneSequence (q : Bool) (p0 p1 : Int) (i : Nat) {cell : KvCell}
    (one : cell.seqId ⊆ {0}) :
    (seqRmVisit q 0 p0 p1 i cell).cell.seqId ⊆ {0} ∧
    (seqRmVisit q 0 p0 p1 i cell).cell.isEmpty =
      (cell.isEmpty || decide (p0 ≤ cell.pos ∧ cell.pos < p1)) ∧
    ((seqRmVisit q 0 p0 p1 i cell).cell.isEmpty = false →
      (seqRmVisit q 0 p0 p1 i cell).cell.pos = cell.pos) := by
  rcases Finset.subset_singleton_iff.mp one with empty | owned
  · have isEmpty : cell.isEmpty = true := (KvCell.isEmpty_iff cell).mpr empty
    simp [seqRmVisit, isEmpty, one]
  · have used : cell.isEmpty = false := by simp [owned]
    have member : cell.hasSeqId 0 = true := by simp [owned]
    have dropped : (cell.dropSeqId 0).isEmpty = true := by
      simp [KvCell.dropSeqId, owned]
    by_cases inRange : p0 ≤ cell.pos ∧ cell.pos < p1
    · simp [seqRmVisit, used, member, dropped, inRange, KvCell.release]
    · simp [seqRmVisit, inRange, one]

theorem storedPositions_mapIdx (cells : List KvCell) (f : Nat → KvCell → KvCell)
    (removed : Int → Bool)
    (visited : ∀ i, ∀ cell ∈ cells, (f i cell).isEmpty = (cell.isEmpty || removed cell.pos) ∧
      ((f i cell).isEmpty = false → (f i cell).pos = cell.pos)) :
    storedPositions (cells.mapIdx f) = (storedPositions cells).filter fun pos => !removed pos := by
  induction cells generalizing f with
  | nil => rfl
  | cons cell rest ih =>
    have tail := ih (fun i => f (i + 1)) fun i other member =>
      visited (i + 1) other (mem_cons_of_mem _ member)
    obtain ⟨emptied, kept⟩ := visited 0 cell mem_cons_self
    rw [mapIdx_cons, storedPositions_cons, storedPositions_cons, tail]
    cases empty : cell.isEmpty with
    | true => simp [emptied, empty]
    | false =>
      cases out : removed cell.pos with
      | true => simp [emptied, out]
      | false =>
        have stays : (f 0 cell).isEmpty = false := by simp [emptied, empty, out]
        simp [stays, out, kept stays]

/-- Without a suffix, the positions below `keep` are left. -/
theorem filter_range_suffix {stored keep : Nat} {low high : Int} (kept : keep ≤ stored)
    (suffix : ∀ pos : Int, 0 ≤ pos → pos < stored → ((low ≤ pos ∧ pos < high) ↔ keep ≤ pos)) :
    (((List.range stored).map Int.ofNat).filter fun pos => !decide (low ≤ pos ∧ pos < high)) =
      (List.range keep).map Int.ofNat := by
  obtain ⟨removed, rfl⟩ := Nat.exists_eq_add_of_le kept
  rw [range_add, map_append, filter_append]
  have below : ((List.range keep).map Int.ofNat).filter
      (fun pos => !decide (low ≤ pos ∧ pos < high)) = (List.range keep).map Int.ofNat := by
    apply filter_eq_self.mpr
    intro pos member
    obtain ⟨i, inside, rfl⟩ := mem_map.mp member
    have bound := mem_range.mp inside
    have outside := suffix (Int.ofNat i) (by simp) (by simp only [Int.ofNat_eq_natCast]; omega)
    simp only [Int.ofNat_eq_natCast] at outside ⊢
    simp only [Bool.not_eq_true', decide_eq_false_iff_not]
    omega
  have above : (((List.range removed).map (keep + ·)).map Int.ofNat).filter
      (fun pos => !decide (low ≤ pos ∧ pos < high)) = [] := by
    apply filter_eq_nil_iff.mpr
    intro pos member
    obtain ⟨j, inside, rfl⟩ := mem_map.mp member
    obtain ⟨i, bound, rfl⟩ := mem_map.mp inside
    have bound := mem_range.mp bound
    have out := suffix (Int.ofNat (keep + i)) (by simp only [Int.ofNat_eq_natCast]; omega)
      (by simp only [Int.ofNat_eq_natCast]; omega)
    simp only [Int.ofNat_eq_natCast] at out ⊢
    simp only [Bool.not_eq_true', decide_eq_false_iff_not]
    omega
  rw [below, above, append_nil]

structure SwaTracked.Sound (cfg : SwaConfig) (t : SwaTracked Row) : Prop where
  exact_ : t.cache.kv.Exact
  transformer : t.cache.kv.recurrent = false
  compacted : t.cache.kv.compacted = true
  one : OneSequence t.cache.kv.cells
  positions : (storedPositions t.cache.kv.cells).Perm
    ((List.range t.cache.kv.stored).map Int.ofNat)
  map : WindowMap cfg t.cache t.data t.cache.kv.stored

theorem searchFromStart_eq (c : KvCache) (nTokens : Nat) :
    ∃ head, head ≤ c.head ∧ searchFromStart c nTokens = { c with head := head } := by
  unfold searchFromStart
  split
  · exact ⟨0, Nat.zero_le _, rfl⟩
  · exact ⟨c.head, le_refl _, rfl⟩

theorem findSlot_positions {cfg : SwaConfig} {t : SwaTracked Row} (sound : t.Sound cfg)
    {batch : Batch} {embdToken : Int} {data : Nat → Row}
    (allowed : t.Allows cfg (.decode batch embdToken data)) {placed : KvCache}
    (found : kvCacheFindSlot (searchFromStart t.cache.kv batch.tokens.length) batch embdToken =
      (true, placed)) :
    placed.Exact ∧ OneSequence placed.cells ∧
      placed.stored = t.cache.kv.stored + batch.tokens.length ∧
      (storedPositions placed.cells).Perm ((List.range placed.stored).map Int.ofNat) ∧
      ∃ head cells used, placed = { t.cache.kv with head := head, cells := cells, used := used } := by
  obtain ⟨-, ids, consecutive⟩ := allowed
  obtain ⟨start, below, searched⟩ := searchFromStart_eq t.cache.kv batch.tokens.length
  rw [searched] at found
  have startExact : ({ t.cache.kv with head := start } : KvCache).Exact :=
    ⟨sound.exact_.cells, sound.exact_.used, le_trans below sound.exact_.head⟩
  have startTransformer : ({ t.cache.kv with head := start } : KvCache).recurrent = false :=
    sound.transformer
  have someSeq : ∀ tok ∈ batch.tokens, tok.seqIds ≠ [] := fun tok member => by
    rw [ids tok member]
    exact cons_ne_nil _ _
  have valid : ∀ tok ∈ batch.tokens, 0 ≤ tok.pos ∧ tok.seqIds ≠ [] := by
    intro tok member
    have inRange : tok.pos ∈ (List.range batch.tokens.length).map fun i : Nat =>
        (t.cache.kv.stored + i : Int) := consecutive ▸ mem_map_of_mem member
    obtain ⟨i, -, at_⟩ := mem_map.mp inRange
    exact ⟨by omega, someSeq tok member⟩
  obtain ⟨placedExact, -, -⟩ := findSlot_exact_transformer _ _ _ _ _ _ startTransformer startExact
    valid found
  obtain ⟨head, fits, free, rfl⟩ :=
    kvCacheFindSlot_found _ _ _ _ _ startTransformer startExact.head found
  have room : batch.tokens.length ≤ (t.cache.kv.cells.drop head).length := by
    simp only [KvCache.size] at fits
    rw [length_drop]
    omega
  let env := placeEnv { t.cache.kv with head := start } batch embdToken true
  have positions := storedPositions_placeTokens env batch.tokens (qsaMax t.cache.kv.cells)
    (t.cache.kv.cells.drop head) room (startExact.slot_empty head _ free) someSeq
  have together : (storedPositions (t.cache.kv.cells.take head ++
      placeTokens env (qsaMax t.cache.kv.cells) (t.cache.kv.cells.drop head) batch.tokens)).Perm
      (storedPositions t.cache.kv.cells ++ batch.tokens.map BatchToken.pos) := by
    have split_ := congrArg storedPositions (take_append_drop head t.cache.kv.cells)
    rw [storedPositions_append] at split_
    rw [storedPositions_append, positions, ← split_, append_assoc]
    exact perm_append_comm.append_left _
  have count : KvCache.stored { t.cache.kv with
      head := head
      cells := t.cache.kv.cells.take head ++ placeTokens env (qsaMax t.cache.kv.cells)
        (t.cache.kv.cells.drop head) batch.tokens
      used := t.cache.kv.used + batch.tokens.length } =
      t.cache.kv.stored + batch.tokens.length := by
    rw [KvCache.stored, together.length_eq, length_append, length_map]
    rfl
  refine ⟨placedExact, ?_, count, ?_, head, _, _, rfl⟩
  · intro cell member
    rcases mem_append.mp member with kept | new
    · exact sound.one cell (mem_of_mem_take kept)
    · exact placeTokens_oneSequence _ _ _ _
        (fun other inside => sound.one other (mem_of_mem_drop inside)) ids cell new
  · refine together.trans ?_
    rw [consecutive]
    have extended : (List.range (t.cache.kv.stored + batch.tokens.length)).map Int.ofNat =
        (List.range t.cache.kv.stored).map Int.ofNat ++ (List.range batch.tokens.length).map
          fun i : Nat => (t.cache.kv.stored + i : Int) := by
      rw [range_add, map_append, map_map]
      rfl
    rw [count, extended]
    exact sound.positions.append_right _

theorem SwaTracked.Sound.decode {cfg : SwaConfig} {t next : SwaTracked Row}
    (sound : t.Sound cfg) {batch : Batch} {embdToken : Int} {data : Nat → Row}
    (allowed : t.Allows cfg (.decode batch embdToken data))
    (stepped : t.step cfg (.decode batch embdToken data) = some next) : next.Sound cfg := by
  simp only [SwaTracked.step, decodeSwa] at stepped
  cases found : kvCacheFindSlot (searchFromStart t.cache.kv batch.tokens.length) batch embdToken
    with
  | mk success placed =>
  rw [found] at stepped
  cases success with
  | false => cases stepped
  | true =>
    obtain ⟨placedExact, one, count, positions, head, cells, used, rfl⟩ :=
      findSlot_positions sound allowed found
    simp only [Option.map_map, Option.map_eq_some_iff, Function.comp_apply] at stepped
    obtain ⟨after, compacted, rfl⟩ := stepped
    have map : WindowMap cfg { t.cache with kv := { t.cache.kv with
        head := head, cells := cells, used := used } } t.data t.cache.kv.stored :=
      ⟨sound.map.sink, sound.map.window, sound.map.low, sound.map.high, sound.map.base,
        sound.map.counted, sound.map.retained, sound.map.rows⟩
    obtain ⟨moved, fits, headSwa, base, same⟩ := map.compact allowed.1 compacted
    have written := moved.write fits data (advanceHead after.kv batch.tokens.length).head
    have sameCells : after.kv.cells = cells := by rw [same]
    refine ⟨⟨?_, ?_, ?_⟩, ?_, ?_, ?_, ?_, ?_⟩
    · rw [show (advanceHead after.kv batch.tokens.length).cells = after.kv.cells from rfl,
        sameCells]
      exact placedExact.cells
    · have usedSame : after.kv.used = used := by rw [same]
      simp only [advanceHead, sameCells, usedSame]
      exact placedExact.used
    · change (if after.kv.size ≤ after.kv.head + batch.tokens.length then 0
        else after.kv.head + batch.tokens.length) ≤ after.kv.size
      split <;> omega
    · simp only [same]
      exact sound.transformer
    · simp only [same]
      exact sound.compacted
    · simp only [advanceHead, sameCells]
      exact one
    · simp only [advanceHead, sameCells]
      exact positions
    · have stored : KvCache.stored { advanceHead after.kv batch.tokens.length with
          headSwa := after.kv.headSwa + batch.tokens.length } =
          t.cache.kv.stored + batch.tokens.length := by
        rw [← count]
        simp [advanceHead, KvCache.stored, sameCells]
      rw [stored]
      exact written

theorem kvCacheSeqRm_carried {c kv : KvCache} (transformer : c.recurrent = false) {p0 p1 : Int}
    (removed : kvCacheSeqRm c 0 p0 p1 = some (true, kv)) :
    ∃ headSwa base, kv = { c with
        cells := (c.sweep (seqRmVisit c.hasQnextStateStorage 0 (rangeLow p0) (rangeHigh p1))).cells
        used := (c.sweep (seqRmVisit c.hasQnextStateStorage 0 (rangeLow p0) (rangeHigh p1))).used
        head := lowerHead c.head
          (c.sweep (seqRmVisit c.hasQnextStateStorage 0 (rangeLow p0) (rangeHigh p1))).newHead
        headSwa := headSwa
        posBaseSwa := base } ∧
      ((compactRm c 0 (rangeLow p0) (rangeHigh p1) = .keep ∧ headSwa = c.headSwa ∧
          base = c.posBaseSwa) ∨
        compactRm c 0 (rangeLow p0) (rangeHigh p1) = .apply headSwa base) := by
  have notRecurrent : ¬ (c.recurrent && recurrentRmRefused c 0 (rangeLow p0)
      (rangeHigh p1)) = true := by simp [transformer]
  simp only [kvCacheSeqRm, if_neg notRecurrent] at removed
  cases guard : compactRm c 0 (rangeLow p0) (rangeHigh p1) with
  | keep =>
    rw [guard] at removed
    cases removed
    exact ⟨c.headSwa, c.posBaseSwa, rfl, .inl ⟨rfl, rfl, rfl⟩⟩
  | refuse =>
    rw [guard] at removed
    cases removed
  | assertFailed =>
    rw [guard] at removed
    cases removed
  | apply head base =>
    rw [guard] at removed
    cases removed
    exact ⟨head, base, rfl, .inr rfl⟩

theorem SwaTracked.Sound.seqRm {cfg : SwaConfig} {t next : SwaTracked Row}
    (sound : t.Sound cfg) {p0 p1 : Int} (allowed : t.Allows cfg (.seqRm p0 p1))
    (stepped : t.step cfg (.seqRm p0 p1) = some next) : next.Sound cfg := by
  obtain ⟨keep, kept, suffix⟩ := allowed
  simp only [SwaTracked.step] at stepped
  split at stepped
  · rename_i kv removed
    obtain rfl := Option.some.inj stepped
    obtain ⟨headSwa, base, rfl, carried⟩ := kvCacheSeqRm_carried sound.transformer removed
    let visit := seqRmVisit t.cache.kv.hasQnextStateStorage 0 (rangeLow p0) (rangeHigh p1)
    have swept : (t.cache.kv.sweep visit).cells =
        t.cache.kv.cells.mapIdx fun i cell => (visit i cell).cell := KvCache.sweep_cells _ _
    have exact_ := sound.exact_.withSweep (lowerHead t.cache.kv.head
        (t.cache.kv.sweep visit).newHead) t.cache.kv.hasShift visit
      (lowerHead_le _ _ _ sound.exact_.head) fun i cell => seqRmVisit_exact _ 0 _ _ i cell
    have filtered : storedPositions (t.cache.kv.sweep visit).cells =
        (storedPositions t.cache.kv.cells).filter fun pos =>
          !decide (rangeLow p0 ≤ pos ∧ pos < rangeHigh p1) := by
      rw [swept]
      exact storedPositions_mapIdx _ _ _ fun i cell member =>
        (seqRmVisit_oneSequence _ _ _ i (sound.one cell member)).2
    have left := filter_range_suffix kept suffix
    have positions : (storedPositions (t.cache.kv.sweep visit).cells).Perm
        ((List.range keep).map Int.ofNat) := by
      rw [filtered, ← left]
      exact sound.positions.filter _
    have count : (storedPositions (t.cache.kv.sweep visit).cells).length = keep := by
      rw [positions.length_eq, length_map, length_range]
    refine ⟨⟨exact_.cells, exact_.used, exact_.head⟩, sound.transformer, sound.compacted, ?_, ?_,
      ?_⟩
    · intro cell member
      rw [swept] at member
      obtain ⟨i, inside, rfl⟩ := mem_mapIdx.mp member
      exact (seqRmVisit_oneSequence _ _ _ i (sound.one _ (getElem_mem inside))).1
    · simp only [KvCache.stored]
      rw [count]
      exact positions
    · simp only [KvCache.stored]
      rw [count]
      exact sound.map.remove sound.compacted (rangeLow_nonneg p0) kept suffix rfl rfl carried
  · cases stepped

theorem SwaTracked.Sound.init (cfg : SwaConfig) (rows data : Nat → Row) :
    SwaTracked.Sound cfg ⟨swaCacheInit cfg rows, data⟩ := by
  have exact_ := kvCacheInit_exact { cfg.kv with recurrent := false } cfg.kvSize
  have blank : ∀ cell ∈ (swaCacheInit cfg rows).kv.cells, cell.seqId = ∅ := by
    intro cell member
    obtain ⟨i, -, rfl⟩ := mem_map.mp member
    split <;> rfl
  have nothing : storedPositions (swaCacheInit cfg rows).kv.cells = [] := by
    rw [storedPositions, map_eq_nil_iff, filter_eq_nil_iff]
    intro cell member
    simp [blank cell member]
  have none_ : (swaCacheInit cfg rows).kv.stored = 0 := by
    rw [KvCache.stored, nothing]
    rfl
  have room := cfg.room
  refine ⟨⟨exact_.cells, exact_.used, exact_.head⟩, rfl, rfl, ?_, ?_, ?_⟩
  · intro cell member
    rw [blank cell member]
    exact Finset.empty_subset _
  · simp only [nothing, none_]
    exact List.Perm.refl _
  · simp only [none_]
    refine ⟨rfl, rfl, le_refl _, ?_, le_refl _, ?_, .inl rfl, fun p _ below => ?_⟩
    · simp only [swaCacheInit]
      omega
    · simp [swaCacheInit, KvCache.liveSwa]
    · omega

def smallWindow : SwaConfig where
  kvSize := 3
  nSwa := 2
  pad := 1
  nUbatch := 2

def twoTokens : Batch where
  tokens := [{ token := 5, pos := 0, seqIds := [0] }, { token := 6, pos := 1, seqIds := [0] }]

end LlamaCpp.Kv
