import LlamaCpp.Kv.ContextRuns

/-!
# The attention width over a run

`llama_kv_cache_init` fixes the number of cells for good, so a size that is a
multiple of the padding stays one, and after every search the width that
`llama_decode_internal` computes covers the cells in use exactly when the probes
reach them.  `gapCache` is a state where they do not.
-/

set_option autoImplicit false

namespace LlamaCpp.Kv

open LlamaCpp.Lib

theorem attentionWidth_mono (c : KvCache) (pad first second : Nat) (ordered : first ≤ second) :
    attentionWidth c pad first ≤ attentionWidth c pad second := by
  have padded : ggmlPad first pad ≤ ggmlPad second pad :=
    Nat.mul_le_mul_right pad (Nat.div_le_div_right (by omega))
  simp only [attentionWidth]
  omega

theorem KvCache.inUse_lt_size {c : KvCache} {i : Nat} (inUse : c.inUse i = true) : i < c.size := by
  by_contra outside
  rw [KvCache.inUse, KvCache.cell, List.getD_eq_default _ _ (not_lt.mp outside)] at inUse
  cases inUse

theorem refineUp_inUse (c : KvCache) (i last : Nat) (probe : c.inUse (i - 1) = true) :
    c.inUse (refineUp c i last - 1) = true := by
  induction last with
  | zero => exact probe
  | succ j ih =>
    simp only [refineUp]
    split
    · split
      · assumption
      · exact ih
    · exact probe

theorem cellMaxPadFrom_inUse (c : KvCache) (pad : Nat) (positive : 0 < pad) (i last : Nat)
    (hit : 0 < cellMaxPadFrom c pad positive i last) :
    c.inUse (cellMaxPadFrom c pad positive i last - 1) = true := by
  fun_induction cellMaxPadFrom c pad positive i last with
  | case1 last => cases hit
  | case2 i last nonzero probe => exact refineUp_inUse c i last probe
  | case3 i last nonzero miss ih => exact ih hit

theorem kvCacheCellMaxPad_le (c : KvCache) (pad : Nat) (positive : 0 < pad) :
    kvCacheCellMaxPad c pad positive ≤ kvCacheCellMax c := by
  by_cases hit : 0 < kvCacheCellMaxPad c pad positive
  · have inUse := cellMaxPadFrom_inUse c pad positive c.size c.size hit
    have below := lt_kvCacheCellMax c _ (KvCache.inUse_lt_size inUse) inUse
    change kvCacheCellMaxPad c pad positive - 1 < _ at below
    omega
  · omega

theorem covers_plain (c : KvCache) (pad : Nat) (positive : 0 < pad) :
    Covers c (attentionWidth c pad (kvCacheCellMax c)) := by
  intro i inside inUse
  have below := lt_kvCacheCellMax c i inside inUse
  have padded := ggmlPad_ge (kvCacheCellMax c) pad positive
  rw [attentionWidth]
  omega

theorem attentionWidth_eq_iff_covers (c : KvCache) (pad : Nat) (positive : 0 < pad)
    (multiple : pad ∣ c.size) :
    attentionWidth c pad (kvCacheCellMaxPad c pad positive) =
        attentionWidth c pad (kvCacheCellMax c) ↔
      Covers c (attentionWidth c pad (kvCacheCellMaxPad c pad positive)) := by
  constructor
  · intro same
    rw [same]
    exact covers_plain c pad positive
  · intro covers
    apply le_antisymm
    · exact attentionWidth_mono c pad _ _ (kvCacheCellMaxPad_le c pad positive)
    · by_cases empty : kvCacheCellMax c = 0
      · rw [empty]
        exact attentionWidth_mono c pad _ _ (Nat.zero_le _)
      · have top := kvCacheCellMax_inUse c (Nat.pos_of_ne_zero empty)
        have reached := covers _ (KvCache.inUse_lt_size top) top
        generalize kvCacheCellMaxPad c pad positive = strided at reached
        obtain ⟨blocks, size⟩ := multiple
        have width : ∃ k, attentionWidth c pad strided = k * pad := by
          rw [attentionWidth, size, ggmlPad]
          rcases le_total (pad * blocks) (max pad ((strided + pad - 1) / pad * pad)) with all | part
          · exact ⟨blocks, by rw [min_eq_left all, Nat.mul_comm]⟩
          · rw [min_eq_right part]
            rcases le_total pad ((strided + pad - 1) / pad * pad) with more | one
            · exact ⟨_, max_eq_right more⟩
            · exact ⟨1, by rw [max_eq_left one, one_mul]⟩
        obtain ⟨k, width⟩ := width
        rw [width] at reached
        have padded := ggmlPad_le_of_le_mul (kvCacheCellMax c) k pad positive (by omega)
        have first : pad ≤ k * pad := by
          have : 0 < k := by
            by_contra none
            have zero : k = 0 := by omega
            rw [zero] at reached
            omega
          exact Nat.le_mul_of_pos_left pad this
        rw [attentionWidth]
        omega

/-- After every search of a decode step in a reachable state, the attention width
covers the cells in use, and is the width of the plain scan, exactly when the probes
reach them. -/
theorem decode_width_covers_iff (env : ContextEnv) (cfg : KvConfig) (kvSize pad : Nat)
    (transformer : cfg.recurrent = false) (positive : 0 < pad) (multiple : pad ∣ kvSize)
    (c : KvCache)
    (run : Reaches (contextStep env) (fun _ op => op.Valid) (kvCacheInit cfg kvSize) c)
    (batch : Batch) (embdToken : Int) (c' : KvCache)
    (found : kvCacheFindSlot (searchFromStart c batch.tokens.length) batch embdToken =
      (true, c')) :
    (Covers c' (attentionWidth c' pad (kvCacheCellMaxPad c' pad positive)) ↔
        ProbesReach c' pad) ∧
      (attentionWidth c' pad (kvCacheCellMaxPad c' pad positive) =
          attentionWidth c' pad (kvCacheCellMax c') ↔ ProbesReach c' pad) := by
  obtain ⟨exact_, plain, size⟩ := context_reaches_exact env cfg kvSize transformer c run
  obtain ⟨startExact, startPlain⟩ :=
    cacheStep_exact c _ (.searchFromStart batch.tokens.length) plain exact_ trivial rfl
  have startSize := cacheStep_size (.searchFromStart batch.tokens.length) plain
    exact_.head rfl
  have multiple' : pad ∣ c'.size := by
    rw [findSlot_size startPlain startExact.head found, startSize, size]
    exact multiple
  have covers := attentionWidth_covers_iff c' pad positive multiple'
  exact ⟨covers, (attentionWidth_eq_iff_covers c' pad positive multiple').trans covers⟩

/-- `n` tokens of one sequence from position `pos` on. -/
def textBatch (seqId : Int) (pos : Int) (n : Nat) : Batch where
  tokens := (List.range n).map fun i => { token := 1, pos := pos + i, seqIds := [seqId] }

def gapOps : List ContextOp :=
  [.cache (.findSlot (textBatch 0 0 31) tokenNull true),
   .cache (.findSlot (textBatch 1 0 1) tokenNull true),
   .cache (.findSlot (textBatch 0 31 2) tokenNull true),
   .cache (.seqRm 1 (-1) (-1))]

def gapCache : KvCache :=
  (runChecked (contextStep {}) (fun _ op => op.Valid) (kvCacheInit {} 64) gapOps).getD
    { cells := [] }

theorem gapCache_reached :
    Reaches (contextStep {}) (fun _ op => op.Valid) (kvCacheInit {} 64) gapCache :=
  reaches_of_runChecked gapOps _ _ (by decide +kernel)

def gapPlaced : KvCache :=
  (kvCacheFindSlot (searchFromStart gapCache 2) (textBatch 0 33 2) tokenNull).2

theorem gapPlaced_found :
    kvCacheFindSlot (searchFromStart gapCache 2) (textBatch 0 33 2) tokenNull =
      (true, gapPlaced) := by
  have found : (kvCacheFindSlot (searchFromStart gapCache 2) (textBatch 0 33 2) tokenNull).1 =
      true := by decide +kernel
  exact Prod.ext found rfl

theorem decode_width_covers_iff_at_gapPlaced :
    Covers gapPlaced (attentionWidth gapPlaced 32
        (kvCacheCellMaxPad gapPlaced 32 (getPadding_pos false))) ↔
      ProbesReach gapPlaced 32 :=
  (decode_width_covers_iff {} {} 64 32 rfl (getPadding_pos false) (by decide) gapCache
    gapCache_reached (textBatch 0 33 2) tokenNull gapPlaced gapPlaced_found).1

/-- The tokens end up in cells 34 and 35 while the width is 32. -/
theorem decode_width_misses_cells :
    ¬ ∀ (env : ContextEnv) (cfg : KvConfig) (kvSize : Nat) (flashAttn : Bool),
      cfg.recurrent = false → getPadding flashAttn ∣ kvSize → ∀ c : KvCache,
      Reaches (contextStep env) (fun _ op => op.Valid) (kvCacheInit cfg kvSize) c →
      ∀ (batch : Batch) (embdToken : Int) (c' : KvCache),
        kvCacheFindSlot (searchFromStart c batch.tokens.length) batch embdToken = (true, c') →
        Covers c' (attentionWidth c' (getPadding flashAttn)
          (kvCacheCellMaxPad c' (getPadding flashAttn) (getPadding_pos flashAttn))) := by
  intro claimed
  have covers := claimed {} {} 64 false rfl (by decide) gapCache gapCache_reached
    (textBatch 0 33 2) tokenNull gapPlaced gapPlaced_found
  have placed : 35 < gapPlaced.size ∧ gapPlaced.inUse 35 = true := by decide +kernel
  have width : attentionWidth gapPlaced (getPadding false)
      (kvCacheCellMaxPad gapPlaced (getPadding false) (getPadding_pos false)) = 32 := by
    decide +kernel
  have below := covers 35 placed.1 placed.2
  omega

end LlamaCpp.Kv
