import LlamaCpp.Kv.Pass
import LlamaCpp.Lib.Run

/-!
# The cache as a set of entries

An entry is a sequence, a position and a token.  `CacheOp.Effect` says what each
operation means for the set of entries, in the words of the public header;
`Exact` is the bookkeeping every decode relies on.  Both are proved for every
state a run of operations reaches from an empty cache.
-/

set_option autoImplicit false

namespace LlamaCpp.Kv

open LlamaCpp.Lib List

abbrev Entry := Int × Int × Int

def KvCell.Holds (cell : KvCell) (e : Entry) : Prop :=
  e.1 ∈ cell.seqId ∧ e.2.1 = cell.pos ∧ e.2.2 = cell.token

def entriesOf (cells : List KvCell) : Set Entry := {e | ∃ cell ∈ cells, cell.Holds e}

def KvCache.entries (c : KvCache) : Set Entry := entriesOf c.cells

def Batch.entries (batch : Batch) (embdToken : Int) : Set Entry :=
  {e | ∃ tok ∈ batch.tokens, e.1 ∈ tok.seqIds ∧ e.2.1 = tok.pos ∧
    e.2.2 = if batch.hasTokens then tok.token else embdToken}

def InRange (p0 p1 pos : Int) : Prop := (p0 < 0 ∨ p0 ≤ pos) ∧ (p1 < 0 ∨ pos < p1)

instance (p0 p1 pos : Int) : Decidable (InRange p0 p1 pos) :=
  inferInstanceAs (Decidable ((p0 < 0 ∨ p0 ≤ pos) ∧ (p1 < 0 ∨ pos < p1)))

inductive CacheOp
  | searchFromStart (nTokens : Nat)
  | findSlot (batch : Batch) (embdToken : Int) (setPositionMetadata : Bool)
  | seqRm (seqId : Int) (p0 p1 : Int)
  | seqCp (seqIdSrc seqIdDst : Int) (p0 p1 : Int)
  | seqKeep (seqId : Int)
  | seqAdd (seqId : Int) (p0 p1 delta : Int)
  | seqDiv (seqId : Int) (p0 p1 : Int) (d : Int)
  | clear

/-- `findSlot` is the search followed, when it succeeds, by the head advance of
`llama_decode_internal`. -/
def cacheStep (c : KvCache) : CacheOp → Option KvCache
  | .searchFromStart nTokens => some (searchFromStart c nTokens)
  | .findSlot batch embdToken meta_ =>
    match kvCacheFindSlot c batch embdToken meta_ with
    | (true, c') => some (advanceHead c' batch.tokens.length)
    | (false, c') => some c'
  | .seqRm seqId p0 p1 => (kvCacheSeqRm c seqId p0 p1).map Prod.snd
  | .seqCp src dst p0 p1 => kvCacheSeqCp c src dst p0 p1
  | .seqKeep seqId => some (kvCacheSeqKeep c seqId)
  | .seqAdd seqId p0 p1 delta => kvCacheSeqAdd c seqId p0 p1 delta
  | .seqDiv seqId p0 p1 d => kvCacheSeqDiv c seqId p0 p1 d
  | .clear => some (kvCacheClear c)

def CacheOp.Valid : CacheOp → Prop
  | .findSlot batch _ _ => ∀ tok ∈ batch.tokens, 0 ≤ tok.pos ∧ tok.seqIds ≠ []
  | .seqDiv _ _ _ d => 1 ≤ d
  | _ => True

instance : (op : CacheOp) → Decidable op.Valid
  | .findSlot batch _ _ =>
    inferInstanceAs (Decidable (∀ tok ∈ batch.tokens, 0 ≤ tok.pos ∧ tok.seqIds ≠ []))
  | .seqDiv _ _ _ d => inferInstanceAs (Decidable (1 ≤ d))
  | .searchFromStart _ | .seqRm .. | .seqCp .. | .seqKeep _ | .seqAdd .. | .clear => isTrue trivial

def KvCell.movedPos (seqId : Int) (p0 p1 : Int) (f : Int → Int) (cell : KvCell) : Int :=
  if seqId ∈ cell.seqId ∧ InRange p0 p1 cell.pos then f cell.pos else cell.pos

/-- The entries after every token of the sequence in range was moved by `f`, those
that `f` sends below zero dropped. -/
def movedEntries (c : KvCache) (seqId : Int) (p0 p1 : Int) (f : Int → Int) : Set Entry :=
  {e | ∃ cell ∈ c.cells, e.1 ∈ cell.seqId ∧ e.2.1 = cell.movedPos seqId p0 p1 f ∧
    e.2.2 = cell.token ∧ 0 ≤ e.2.1}

def CacheOp.Effect (c c' : KvCache) : CacheOp → Prop
  | .searchFromStart _ => c'.entries = c.entries
  | .findSlot batch embdToken meta_ =>
    c'.entries = if (kvCacheFindSlot c batch embdToken meta_).1 then
      c.entries ∪ batch.entries embdToken else c.entries
  | .seqRm seqId p0 p1 =>
    c'.entries = {e ∈ c.entries | ¬ ((seqId < 0 ∨ e.1 = seqId) ∧ InRange p0 p1 e.2.1)}
  | .seqCp src dst p0 p1 =>
    c'.entries = c.entries ∪ {e | e.1 = dst ∧ (src, e.2) ∈ c.entries ∧ InRange p0 p1 e.2.1}
  | .seqKeep seqId => c'.entries = {e ∈ c.entries | e.1 = seqId}
  | .seqAdd seqId p0 p1 delta => c'.entries = movedEntries c seqId p0 p1 (· + delta)
  | .seqDiv seqId p0 p1 d => c'.entries = movedEntries c seqId p0 p1 (·.tdiv d)
  | .clear => c'.entries = ∅

/-- An open range reaches every cell: none sits at the largest position, which the
substituted bound leaves out. -/
def OpenRangeReaches (c : KvCache) (p1 : Int) : Prop :=
  p1 < 0 → ∀ cell ∈ c.cells, cell.pos < posMax

/-- The state does not lead the operation to read another range or another source
sequence than it was given. -/
def CacheOp.ReadsArguments (c : KvCache) : CacheOp → Prop
  | .seqRm _ _ p1 => OpenRangeReaches c p1
  | .seqCp src dst _ p1 => OpenRangeReaches c p1 ∧
      (recordsStateSource c src dst = true → (c.cell src.toNat).src = src)
  | .seqAdd _ _ p1 _ => OpenRangeReaches c p1
  | .seqDiv _ _ p1 _ => OpenRangeReaches c p1
  | _ => True

def KvCell.Exact (cell : KvCell) : Prop := 0 ≤ cell.pos ↔ cell.seqId.Nonempty

structure KvCache.Exact (c : KvCache) : Prop where
  cells : ∀ cell ∈ c.cells, cell.Exact
  used : c.used = c.cells.countP (!·.isEmpty)
  head : c.head ≤ c.size

theorem KvCell.release_exact (cell : KvCell) : cell.release.Exact := by
  simp [KvCell.Exact, KvCell.release]

@[simp] theorem KvCell.release_isEmpty (cell : KvCell) : cell.release.isEmpty = true := by
  simp [KvCell.release]

@[simp] theorem KvCell.resetSrc_isEmpty (q : Bool) (i : Nat) (cell : KvCell) :
    (cell.resetSrc q i).isEmpty = cell.isEmpty := by
  simp [KvCell.isEmpty]

theorem KvCell.resetSrc_exact (q : Bool) (i : Nat) (cell : KvCell) (h : cell.Exact) :
    (cell.resetSrc q i).Exact := by
  simpa [KvCell.Exact] using h

variable {cell : KvCell} {c : KvCache} {seqId p0 p1 : Int} {first second : List KvCell}

theorem KvCell.Exact.isEmpty_eq (h : cell.Exact) : cell.isEmpty = decide (cell.pos < 0) := by
  by_cases empty : cell.seqId = ∅
  · have : cell.pos < 0 := by
      by_contra nonneg
      have := h.mp (not_lt.mp nonneg)
      rw [empty] at this
      exact Finset.not_nonempty_empty this
    simp [empty, this]
  · have := h.mpr (Finset.nonempty_iff_ne_empty.mpr empty)
    simp [KvCell.isEmpty, empty]
    omega

/-- A pass whose iterations keep cells exact and take a cell off `used` exactly
when they empty it keeps the cache exact. -/
theorem KvCache.Exact.sweep (exact_ : c.Exact) (visit : Nat → KvCell → CellVisit)
    (keeps : ∀ i cell, cell.Exact → (visit i cell).cell.Exact ∧ (!(visit i cell).cell.isEmpty).toNat + (visit i cell).unused.toNat = (!cell.isEmpty).toNat) :
    (∀ cell ∈ (c.sweep visit).cells, cell.Exact) ∧
      (c.sweep visit).used = (c.sweep visit).cells.countP (!·.isEmpty) := by
  constructor
  · rw [KvCache.sweep_cells]
    intro cell member
    obtain ⟨i, inside, equal⟩ := mem_mapIdx.mp member
    rw [← equal]
    exact (keeps i _ (exact_.cells _ (getElem_mem inside))).1
  · exact c.sweep_used visit exact_.used
      fun j cell member => (keeps j cell (exact_.cells cell member)).2

theorem seqRmVisit_exact (q : Bool) (seqId : Int) (p0 p1 : Int) (i : Nat) (cell : KvCell)
    (h : cell.Exact) : (seqRmVisit q seqId p0 p1 i cell).cell.Exact ∧
      (!(seqRmVisit q seqId p0 p1 i cell).cell.isEmpty).toNat +
        (seqRmVisit q seqId p0 p1 i cell).unused.toNat = (!cell.isEmpty).toNat := by
  simp only [seqRmVisit]
  split
  · split
    · refine ⟨KvCell.resetSrc_exact _ _ _ (KvCell.release_exact _), ?_⟩
      rw [h.isEmpty_eq]
      by_cases nonneg : 0 ≤ cell.pos
      · simp [nonneg, not_lt.mpr nonneg]
      · simp [not_le.mp nonneg]
    · rename_i remains
      rw [Bool.not_eq_true] at remains
      have left := (KvCell.isEmpty_false_iff _).mp remains
      have nonempty : cell.seqId.Nonempty := by
        simp only [KvCell.dropSeqId] at left
        split at left
        · exact absurd left Finset.not_nonempty_empty
        · exact left.mono (Finset.erase_subset _ _)
      have kept := (KvCell.isEmpty_false_iff cell).mpr nonempty
      refine ⟨⟨fun _ => left, fun _ => h.mpr nonempty⟩, ?_⟩
      rw [remains, kept]
      rfl
  · exact ⟨h, by simp⟩

theorem seqKeepVisit_exact (q : Bool) (seqId : Int) (i : Nat) (cell : KvCell)
    (h : cell.Exact) : (seqKeepVisit q seqId i cell).cell.Exact ∧
      (!(seqKeepVisit q seqId i cell).cell.isEmpty).toNat +
        (seqKeepVisit q seqId i cell).unused.toNat = (!cell.isEmpty).toNat := by
  simp only [seqKeepVisit]
  split
  · rename_i member
    have nonempty : cell.seqId.Nonempty := ⟨seqId, (KvCell.hasSeqId_iff _ _).mp member⟩
    have kept := (KvCell.isEmpty_false_iff cell).mpr nonempty
    refine ⟨⟨fun _ => Finset.singleton_nonempty _, fun _ => h.mpr nonempty⟩, ?_⟩
    rw [kept]
    simp
  · refine ⟨KvCell.resetSrc_exact _ _ _ (KvCell.release_exact _), ?_⟩
    rw [h.isEmpty_eq]
    by_cases nonneg : 0 ≤ cell.pos
    · simp [nonneg, not_lt.mpr nonneg]
    · simp [not_le.mp nonneg]

theorem KvCell.inSeqRange_nonempty (hit : cell.inSeqRange seqId p0 p1 = true) :
    cell.seqId.Nonempty := by
  simp only [KvCell.inSeqRange, Bool.and_eq_true] at hit
  exact ⟨seqId, (KvCell.hasSeqId_iff _ _).mp hit.1⟩

theorem seqAddVisit_exact (mrope : Bool) (seqId : Int) (p0 p1 delta : Int) (i : Nat)
    (cell : KvCell) (h : cell.Exact) :
    (seqAddVisit mrope seqId p0 p1 delta i cell).cell.Exact ∧
      (!(seqAddVisit mrope seqId p0 p1 delta i cell).cell.isEmpty).toNat +
        (seqAddVisit mrope seqId p0 p1 delta i cell).unused.toNat = (!cell.isEmpty).toNat := by
  simp only [seqAddVisit]
  split
  · rename_i hit
    have nonempty := KvCell.inSeqRange_nonempty hit
    have kept : (cell.addDelta mrope delta).isEmpty = cell.isEmpty := rfl
    split
    · exact ⟨KvCell.release_exact _, by simp [kept]⟩
    · rename_i nonneg
      exact ⟨⟨fun _ => nonempty, fun _ => not_lt.mp nonneg⟩, by simp [kept]⟩
  · exact ⟨h, by simp⟩

theorem seqDivVisit_exact (mrope : Bool) (seqId : Int) (p0 p1 : Int) (d : Int) (i : Nat)
    (cell : KvCell) (low : 0 ≤ p0) (positive : 1 ≤ d) (h : cell.Exact) :
    (seqDivVisit mrope seqId p0 p1 d i cell).cell.Exact ∧
      (!(seqDivVisit mrope seqId p0 p1 d i cell).cell.isEmpty).toNat +
        (seqDivVisit mrope seqId p0 p1 d i cell).unused.toNat = (!cell.isEmpty).toNat := by
  simp only [seqDivVisit]
  split
  · rename_i hit
    have nonempty := KvCell.inSeqRange_nonempty hit
    have kept : (cell.divide mrope d).isEmpty = cell.isEmpty := rfl
    simp only [KvCell.inSeqRange, Bool.and_eq_true, decide_eq_true_eq] at hit
    have divided : 0 ≤ cell.pos.tdiv d := Int.tdiv_nonneg (by omega) (by omega)
    exact ⟨⟨fun _ => nonempty, fun _ => divided⟩, by simp [kept]⟩
  · exact ⟨h, by simp⟩

theorem rangeLow_nonneg (p0 : Int) : 0 ≤ rangeLow p0 := by
  simp only [rangeLow]
  omega

theorem seqCpCell_exact (src dst : Int) (p0 p1 : Int) (cell : KvCell) (h : cell.Exact) :
    (seqCpCell src dst p0 p1 cell).Exact ∧
      (seqCpCell src dst p0 p1 cell).isEmpty = cell.isEmpty := by
  simp only [seqCpCell]
  split
  · rename_i hit
    simp only [Bool.and_eq_true, KvCell.hasSeqId_iff] at hit
    have nonempty : cell.seqId.Nonempty := ⟨src, hit.1⟩
    have kept := (KvCell.isEmpty_false_iff cell).mpr nonempty
    refine ⟨⟨fun _ => Finset.insert_nonempty _ _, fun _ => h.mpr nonempty⟩, ?_⟩
    rw [kept]
    simp
  · exact ⟨h, rfl⟩

def KvCell.tag (cell : KvCell) : Int × Int × Finset Int := (cell.pos, cell.token, cell.seqId)

theorem KvCell.tag_eq {a b : KvCell} (same : a.tag = b.tag) :
    a.pos = b.pos ∧ a.token = b.token ∧ a.seqId = b.seqId := by
  simpa [KvCell.tag] using same

section

variable (same : first.map KvCell.tag = second.map KvCell.tag)
include same

theorem entriesOf_congr :
    entriesOf first = entriesOf second := by
  have oneWay : ∀ {a b : List KvCell}, a.map KvCell.tag = b.map KvCell.tag → ∀ e,
      e ∈ entriesOf a → e ∈ entriesOf b := by
    rintro a b equal e ⟨cell, member, holds⟩
    have tagged : cell.tag ∈ b.map KvCell.tag := equal ▸ mem_map_of_mem member
    obtain ⟨other, inside, sameTag⟩ := mem_map.mp tagged
    obtain ⟨samePos, sameToken, sameSeq⟩ := KvCell.tag_eq sameTag
    refine ⟨other, inside, ?_⟩
    simpa [KvCell.Holds, samePos, sameToken, sameSeq] using holds
  ext e
  exact ⟨oneWay same e, oneWay same.symm e⟩

theorem forall_exact_congr
    (exact_ : ∀ cell ∈ second, cell.Exact) : ∀ cell ∈ first, cell.Exact := by
  intro cell member
  have tagged : cell.tag ∈ second.map KvCell.tag := same ▸ mem_map_of_mem member
  obtain ⟨other, inside, sameTag⟩ := mem_map.mp tagged
  obtain ⟨samePos, _, sameSeq⟩ := KvCell.tag_eq sameTag
  have := exact_ other inside
  rwa [KvCell.Exact, samePos, sameSeq] at this

theorem countP_isEmpty_congr :
    first.countP (!·.isEmpty) = second.countP (!·.isEmpty) := by
  have throughTag : ∀ l : List KvCell, l.countP (!·.isEmpty) =
      (l.map KvCell.tag).countP fun tag => !decide (tag.2.2 = ∅) := by
    intro l
    rw [countP_map]
    rfl
  rw [throughTag, throughTag, same]

end

theorem map_modify_of_eq {α β : Type*} (l : List α) (i : Nat) (f : α → α) (g : α → β)
    (same : ∀ x, g (f x) = g x) : (l.modify i f).map g = l.map g := by
  apply ext_getElem?
  intro j
  rw [List.getElem?_map, List.getElem?_map, List.getElem?_modify]
  by_cases here : i = j
  · cases l[j]? <;> simp [here, same]
  · simp [here]

theorem placeTokens_exact (env : PlaceEnv) (toks : List BatchToken) (best : Int → Option Int)
    (cells : List KvCell) (exact_ : ∀ cell ∈ cells, cell.Exact)
    (valid : ∀ tok ∈ toks, 0 ≤ tok.pos ∧ tok.seqIds ≠ []) :
    ∀ cell ∈ placeTokens env best cells toks, cell.Exact := by
  induction toks generalizing best cells with
  | nil => simpa [placeTokens] using exact_
  | cons tok toks ih =>
    cases cells with
    | nil => simp [placeTokens]
    | cons old cells =>
      intro cell member
      simp only [placeTokens, mem_cons] at member
      rcases member with here | later
      · subst cell
        obtain ⟨nonneg, someSeq⟩ := valid tok (mem_cons_self ..)
        have nonempty : (placeCell env best old tok).seqId.Nonempty := by
          obtain ⟨id, inside⟩ := exists_mem_of_ne_nil _ someSeq
          exact ⟨id, by simp [placeCell, inside]⟩
        exact ⟨fun _ => nonempty, fun _ => nonneg⟩
      · exact ih _ cells (fun other inside => exact_ other (mem_cons_of_mem _ inside))
          (fun other inside => valid other (mem_cons_of_mem _ inside)) cell later

theorem placeTokens_countP (env : PlaceEnv) (toks : List BatchToken) (best : Int → Option Int)
    (cells : List KvCell) (fits : toks.length ≤ cells.length)
    (free : ∀ cell ∈ cells.take toks.length, cell.seqId = ∅)
    (valid : ∀ tok ∈ toks, tok.seqIds ≠ []) :
    (placeTokens env best cells toks).countP (!·.isEmpty) =
      cells.countP (!·.isEmpty) + toks.length := by
  induction toks generalizing best cells with
  | nil => simp [placeTokens]
  | cons tok toks ih =>
    cases cells with
    | nil => simp at fits
    | cons old cells =>
      have empty : old.isEmpty = true := by
        rw [KvCell.isEmpty_iff]
        exact free old (by simp)
      have placed : (placeCell env best old tok).isEmpty = false := by
        rw [KvCell.isEmpty_false_iff]
        obtain ⟨id, inside⟩ := exists_mem_of_ne_nil _ (valid tok (mem_cons_self ..))
        exact ⟨id, by simp [placeCell, inside]⟩
      simp only [placeTokens, countP_cons, empty, placed]
      rw [ih _ cells (by simpa using fits)
        (fun cell inside => free cell (by simp [inside]))
        (fun other inside => valid other (mem_cons_of_mem _ inside))]
      simp
      omega

theorem mem_entriesOf_cons (cell : KvCell) (cells : List KvCell) (e : Entry) :
    e ∈ entriesOf (cell :: cells) ↔ cell.Holds e ∨ e ∈ entriesOf cells := by
  simp [entriesOf]

theorem mem_entriesOf_append (first second : List KvCell) (e : Entry) :
    e ∈ entriesOf (first ++ second) ↔ e ∈ entriesOf first ∨ e ∈ entriesOf second := by
  simp only [entriesOf, mem_append]
  constructor
  · rintro ⟨cell, member | member, holds⟩
    · exact Or.inl ⟨cell, member, holds⟩
    · exact Or.inr ⟨cell, member, holds⟩
  · rintro (⟨cell, member, holds⟩ | ⟨cell, member, holds⟩)
    · exact ⟨cell, Or.inl member, holds⟩
    · exact ⟨cell, Or.inr member, holds⟩

theorem placeTokens_entries (env : PlaceEnv) (toks : List BatchToken) (best : Int → Option Int)
    (cells : List KvCell) (fits : toks.length ≤ cells.length)
    (free : ∀ cell ∈ cells.take toks.length, cell.seqId = ∅) (e : Entry) :
    e ∈ entriesOf (placeTokens env best cells toks) ↔ e ∈ entriesOf cells ∨
      ∃ tok ∈ toks, e.1 ∈ tok.seqIds ∧ e.2.1 = tok.pos ∧ e.2.2 = env.tokenOf tok := by
  induction toks generalizing best cells with
  | nil => simp [placeTokens]
  | cons tok toks ih =>
    cases cells with
    | nil => simp at fits
    | cons old cells =>
      have empty : old.seqId = ∅ := free old (by simp)
      have oldHolds : ¬ old.Holds e := by simp [KvCell.Holds, empty]
      have newHolds : (placeCell env best old tok).Holds e ↔
          e.1 ∈ tok.seqIds ∧ e.2.1 = tok.pos ∧ e.2.2 = env.tokenOf tok := by
        simp [KvCell.Holds, placeCell, empty]
      simp only [placeTokens, mem_entriesOf_cons]
      rw [ih _ cells (by simpa using fits) (fun cell inside => free cell (by simp [inside]))]
      simp only [mem_cons, exists_eq_or_imp]
      tauto

theorem KvCache.Exact.slot_empty (exact_ : c.Exact) (head nTokens : Nat)
    (free : firstPlaced c.cells head nTokens = none) :
    ∀ cell ∈ (c.cells.drop head).take nTokens, cell.seqId = ∅ := by
  intro cell member
  have negative : cell.pos < 0 := by
    simp only [firstPlaced, List.findIdx?_eq_none_iff, decide_eq_false_iff_not, not_le] at free
    exact free cell member
  have inside := exact_.cells cell (mem_of_mem_drop (mem_of_mem_take member))
  rw [← KvCell.isEmpty_iff, inside.isEmpty_eq]
  simpa using negative

structure KvCache.Plain (c : KvCache) : Prop where
  recurrent : c.recurrent = false
  compacted : c.compacted = false

theorem compactRm_plain (c : KvCache) (seqId p0 p1 : Int) (plain : c.Plain) :
    compactRm c seqId p0 p1 = .keep := by
  simp [compactRm, plain.compacted]

theorem kvCacheSeqRm_plain (c : KvCache) (seqId p0 p1 : Int) (plain : c.Plain) :
    kvCacheSeqRm c seqId p0 p1 =
      let s := c.sweep (seqRmVisit c.hasQnextStateStorage seqId (rangeLow p0) (rangeHigh p1))
      some (true, { c with
        cells := s.cells, used := s.used, head := lowerHead c.head s.newHead }) := by
  have notRecurrent : ¬ (c.recurrent && recurrentRmRefused c seqId (rangeLow p0) (rangeHigh p1)) =
      true := by simp [plain.recurrent]
  simp only [kvCacheSeqRm, if_neg notRecurrent, compactRm_plain c _ _ _ plain]

/-- The sequence whose cells `llama_kv_cache_seq_cp` copies. -/
def copySource (c : KvCache) (src dst : Int) : Int :=
  if recordsStateSource c src dst then (c.cell src.toNat).src else src

/-- The cache after `llama_kv_cache_seq_cp` recorded a state source, if it does. -/
def recordSource (c : KvCache) (src dst : Int) : KvCache :=
  if recordsStateSource c src dst then
    { c with
      doCopy := true
      cells := c.cells.modify dst.toNat fun cell => { cell with src := copySource c src dst } }
  else c

theorem kvCacheSeqCp_plain (c c' : KvCache) (src dst p0 p1 : Int) (plain : c.Plain)
    (stepped : kvCacheSeqCp c src dst p0 p1 = some c') :
    c' = { recordSource c src dst with
      head := 0
      cells := (recordSource c src dst).cells.map
        (seqCpCell (copySource c src dst) dst (rangeLow p0) (rangeHigh p1)) } := by
  have notRecurrent : ¬ c.recurrent = true := by simp [plain.recurrent]
  simp only [kvCacheSeqCp, if_neg notRecurrent] at stepped
  split at stepped
  · rename_i records
    split at stepped
    · rw [Option.some.injEq] at stepped
      rw [← stepped]
      simp only [recordSource, copySource, records]
      rfl
    · cases stepped
  · rename_i records
    rw [Option.some.injEq] at stepped
    rw [← stepped]
    simp [recordSource, copySource, records]

theorem kvCacheSeqAdd_plain {c' : KvCache} {delta : Int} (plain : c.Plain)
    (stepped : kvCacheSeqAdd c seqId p0 p1 delta = some c') : rangeLow p0 = rangeHigh p1 ∧ c' = c ∨
      let s := c.sweep (seqAddVisit c.mrope seqId (rangeLow p0) (rangeHigh p1) delta)
      c' = { c with
        cells := s.cells, used := s.used, hasShift := s.hasShift, head := s.newHead.getD 0 } := by
  have notRecurrent : ¬ c.recurrent = true := by simp [plain.recurrent]
  simp only [kvCacheSeqAdd] at stepped
  split at stepped
  · cases stepped
  · split at stepped
    · exact Or.inl ⟨by assumption, (Option.some.inj stepped).symm⟩
    · split at stepped
      · cases stepped
      · exact Or.inr (Option.some.inj stepped).symm

theorem kvCacheSeqDiv_plain {c' : KvCache} {d : Int} (plain : c.Plain)
    (stepped : kvCacheSeqDiv c seqId p0 p1 d = some c') : rangeLow p0 = rangeHigh p1 ∧ c' = c ∨
      let s := c.sweep (seqDivVisit c.mrope seqId (rangeLow p0) (rangeHigh p1) d)
      c' = { c with cells := s.cells, hasShift := s.hasShift } := by
  have notRecurrent : ¬ c.recurrent = true := by simp [plain.recurrent]
  simp only [kvCacheSeqDiv] at stepped
  split at stepped
  · cases stepped
  · split at stepped
    · exact Or.inl ⟨by assumption, (Option.some.inj stepped).symm⟩
    · split at stepped
      · cases stepped
      · exact Or.inr (Option.some.inj stepped).symm

@[simp] theorem recordSource_used (c : KvCache) (src dst : Int) :
    (recordSource c src dst).used = c.used := by
  unfold recordSource
  split <;> rfl

theorem recordSource_plain (plain : c.Plain) (src dst : Int) : (recordSource c src dst).Plain := by
  unfold recordSource
  split
  · exact ⟨plain.recurrent, plain.compacted⟩
  · exact plain

theorem map_recordSource_cells {β : Type*} (c : KvCache) (src dst : Int) (g : KvCell → β)
    (same : ∀ cell v, g { cell with src := v } = g cell) :
    (recordSource c src dst).cells.map g = c.cells.map g := by
  unfold recordSource
  split
  · exact map_modify_of_eq _ _ _ g fun cell => same cell _
  · rfl

theorem seqCpCell_tag_src (src dst p0 p1 : Int) (cell : KvCell) (v : Int) :
    (seqCpCell src dst p0 p1 { cell with src := v }).tag = (seqCpCell src dst p0 p1 cell).tag := by
  have sameGuard : ({ cell with src := v } : KvCell).hasSeqId src = cell.hasSeqId src := rfl
  simp only [seqCpCell, sameGuard]
  split <;> rfl

/-- Up to `src`, the copy pass runs over the cells it was given. -/
theorem kvCacheSeqCp_tags (c c' : KvCache) (src dst p0 p1 : Int) (plain : c.Plain)
    (stepped : kvCacheSeqCp c src dst p0 p1 = some c') :
    c'.cells.map KvCell.tag = (c.cells.map
      (seqCpCell (copySource c src dst) dst (rangeLow p0) (rangeHigh p1))).map KvCell.tag := by
  rw [kvCacheSeqCp_plain c c' src dst p0 p1 plain stepped, map_map, map_map]
  exact map_recordSource_cells c src dst _ fun cell v => seqCpCell_tag_src _ _ _ _ cell v

theorem findSlot_exact_transformer (c c' : KvCache) (batch : Batch) (embdToken : Int) (meta_ found : Bool)
    (transformer : c.recurrent = false) (exact_ : c.Exact)
    (valid : ∀ tok ∈ batch.tokens, 0 ≤ tok.pos ∧ tok.seqIds ≠ [])
    (searched : kvCacheFindSlot c batch embdToken meta_ = (found, c')) :
    c'.Exact ∧ c'.recurrent = false ∧ c'.compacted = c.compacted := by
  cases found with
  | false =>
    obtain ⟨head, bounded, equal⟩ :=
      kvCacheFindSlot_full c c' batch embdToken meta_ transformer exact_.head searched
    subst c'
    exact ⟨⟨exact_.cells, exact_.used, bounded⟩, transformer, rfl⟩
  | true =>
    obtain ⟨head, fits, free, equal⟩ :=
      kvCacheFindSlot_found c c' batch embdToken meta_ transformer exact_.head searched
    have room : batch.tokens.length ≤ (c.cells.drop head).length := by
      simp only [KvCache.size] at fits
      simp only [length_drop]
      omega
    subst c'
    refine ⟨⟨?_, ?_, ?_⟩, transformer, rfl⟩
    · intro cell member
      rcases mem_append.mp member with kept | placed
      · exact exact_.cells cell (mem_of_mem_take kept)
      · exact placeTokens_exact _ _ _ _
          (fun other inside => exact_.cells other (mem_of_mem_drop inside)) valid cell placed
    · have split_ := congrArg (List.countP (!·.isEmpty)) (take_append_drop head c.cells)
      rw [countP_append] at split_
      have placed := placeTokens_countP (placeEnv c batch embdToken meta_) batch.tokens
        (qsaMax c.cells) (c.cells.drop head) room (exact_.slot_empty head _ free)
        (fun tok member => (valid tok member).2)
      simp only [countP_append]
      rw [exact_.used]
      omega
    · simp only [KvCache.size, length_append, length_take] at fits ⊢
      omega

theorem findSlot_exact (c c' : KvCache) (batch : Batch) (embdToken : Int) (meta_ found : Bool)
    (plain : c.Plain) (exact_ : c.Exact)
    (valid : ∀ tok ∈ batch.tokens, 0 ≤ tok.pos ∧ tok.seqIds ≠ [])
    (searched : kvCacheFindSlot c batch embdToken meta_ = (found, c')) :
    c'.Exact ∧ c'.Plain := by
  obtain ⟨keeps, recurrent, compacted⟩ := findSlot_exact_transformer c c' batch embdToken meta_
    found plain.recurrent exact_ valid searched
  exact ⟨keeps, ⟨recurrent, compacted.trans plain.compacted⟩⟩

theorem KvCache.Exact.withSweep (exact_ : c.Exact) (head : Nat) (hasShift : Bool)
    (visit : Nat → KvCell → CellVisit) (bounded : head ≤ c.size)
    (keeps : ∀ i cell, cell.Exact → (visit i cell).cell.Exact ∧ (!(visit i cell).cell.isEmpty).toNat + (visit i cell).unused.toNat = (!cell.isEmpty).toNat) :
    KvCache.Exact { c with
      cells := (c.sweep visit).cells
      used := (c.sweep visit).used
      hasShift := hasShift
      head := head } := by
  obtain ⟨cells, used⟩ := exact_.sweep visit keeps
  refine ⟨cells, used, ?_⟩
  simpa [KvCache.size, KvCache.sweep_cells] using bounded

theorem cacheStep_exact (c c' : KvCache) (op : CacheOp) (plain : c.Plain) (exact_ : c.Exact)
    (valid : op.Valid) (stepped : cacheStep c op = some c') : c'.Exact ∧ c'.Plain := by
  cases op with
  | searchFromStart nTokens =>
    simp only [cacheStep, searchFromStart, Option.some.injEq] at stepped
    split at stepped
    · subst c'
      exact ⟨⟨exact_.cells, exact_.used, Nat.zero_le _⟩, ⟨plain.recurrent, plain.compacted⟩⟩
    · subst c'
      exact ⟨exact_, plain⟩
  | findSlot batch embdToken meta_ =>
    simp only [cacheStep] at stepped
    cases searched : kvCacheFindSlot c batch embdToken meta_ with
    | mk found placed =>
      obtain ⟨placedExact, placedPlain⟩ :=
        findSlot_exact c placed batch embdToken meta_ found plain exact_ valid searched
      rw [searched] at stepped
      cases found with
      | false =>
        simp only [Option.some.injEq] at stepped
        exact stepped ▸ ⟨placedExact, placedPlain⟩
      | true =>
        simp only [Option.some.injEq] at stepped
        subst c'
        refine ⟨⟨placedExact.cells, placedExact.used, ?_⟩,
          ⟨placedPlain.recurrent, placedPlain.compacted⟩⟩
        change (if placed.size ≤ placed.head + batch.tokens.length then 0
          else placed.head + batch.tokens.length) ≤ placed.size
        split <;> omega
  | seqRm seqId p0 p1 =>
    simp only [cacheStep, kvCacheSeqRm_plain c _ _ _ plain, Option.map_some,
      Option.some.injEq] at stepped
    subst c'
    exact ⟨exact_.withSweep _ _ _ (lowerHead_le _ _ _ exact_.head)
      (fun i cell => seqRmVisit_exact _ _ _ _ i cell), ⟨plain.recurrent, plain.compacted⟩⟩
  | seqCp src dst p0 p1 =>
    have tags := kvCacheSeqCp_tags c c' src dst p0 p1 plain stepped
    have equal := kvCacheSeqCp_plain c c' src dst p0 p1 plain stepped
    have recorded := recordSource_plain plain src dst
    refine ⟨⟨?_, ?_, ?_⟩, ?_⟩
    · refine forall_exact_congr tags fun cell member => ?_
      obtain ⟨old, inside, copied⟩ := mem_map.mp member
      exact copied ▸ (seqCpCell_exact _ _ _ _ old (exact_.cells old inside)).1
    · rw [countP_isEmpty_congr tags, countP_map]
      have used : c'.used = c.used := by
        rw [equal]
        exact recordSource_used c src dst
      rw [used, exact_.used]
      congr 1
      apply countP_congr
      intro cell member
      simp only [Function.comp]
      rw [(seqCpCell_exact _ _ _ _ cell (exact_.cells cell member)).2]
    · rw [equal]
      exact Nat.zero_le _
    · rw [equal]
      exact ⟨recorded.recurrent, recorded.compacted⟩
  | seqKeep seqId =>
    simp only [cacheStep, Option.some.injEq] at stepped
    subst c'
    exact ⟨exact_.withSweep _ _ _ (lowerHead_le _ _ _ exact_.head)
      (fun i cell => seqKeepVisit_exact _ _ i cell), ⟨plain.recurrent, plain.compacted⟩⟩
  | seqAdd seqId p0 p1 delta =>
    obtain ⟨-, rfl⟩ | rfl := kvCacheSeqAdd_plain plain stepped
    · exact ⟨exact_, plain⟩
    · refine ⟨exact_.withSweep _ _ _ ?_ (fun i cell => seqAddVisit_exact _ _ _ _ _ i cell),
        ⟨plain.recurrent, plain.compacted⟩⟩
      cases found : (c.sweep _).newHead with
      | none => exact Nat.zero_le _
      | some h => exact le_of_lt (c.sweep_newHead_lt _ h found)
  | seqDiv seqId p0 p1 d =>
    obtain ⟨-, rfl⟩ | rfl := kvCacheSeqDiv_plain plain stepped
    · exact ⟨exact_, plain⟩
    · have keeps := fun i cell => seqDivVisit_exact c.mrope seqId (rangeLow p0)
        (rangeHigh p1) d i cell (rangeLow_nonneg p0) valid
      have swept := exact_.withSweep c.head
        (c.sweep (seqDivVisit c.mrope seqId (rangeLow p0) (rangeHigh p1) d)).hasShift _
        exact_.head keeps
      refine ⟨⟨swept.cells, ?_, swept.head⟩, ⟨plain.recurrent, plain.compacted⟩⟩
      have unchanged : (c.sweep (seqDivVisit c.mrope seqId (rangeLow p0) (rangeHigh p1)
          d)).used = c.used := by
        apply sweepFrom_used_kept
        intro j cell
        simp only [seqDivVisit]
        split <;> rfl
      have := swept.used
      simpa [unchanged] using this
  | clear =>
    simp only [cacheStep, kvCacheClear, Option.some.injEq] at stepped
    subst c'
    refine ⟨⟨?_, ?_, Nat.zero_le _⟩, ⟨plain.recurrent, plain.compacted⟩⟩
    · intro cell member
      obtain ⟨i, inside, equal⟩ := mem_mapIdx.mp member
      subst cell
      exact KvCell.release_exact c.cells[i]
    · symm
      simp only [Nat.cast_eq_zero, countP_eq_zero]
      intro cell member
      obtain ⟨i, inside, equal⟩ := mem_mapIdx.mp member
      subst cell
      simp [KvCell.release]

theorem mem_entriesOf_mapIdx (cells : List KvCell) (f : Nat → KvCell → KvCell)
    (Q : KvCell → Entry → Prop)
    (holds : ∀ i, ∀ cell ∈ cells, ∀ e, (f i cell).Holds e ↔ Q cell e) (e : Entry) :
    e ∈ entriesOf (cells.mapIdx f) ↔ ∃ cell ∈ cells, Q cell e := by
  constructor
  · rintro ⟨new, member, held⟩
    obtain ⟨i, inside, equal⟩ := mem_mapIdx.mp member
    subst new
    exact ⟨cells[i], getElem_mem inside,
      (holds i _ (getElem_mem inside) e).mp held⟩
  · rintro ⟨cell, member, held⟩
    obtain ⟨i, inside, equal⟩ := getElem_of_mem member
    subst cell
    exact ⟨f i cells[i], mem_mapIdx.mpr ⟨i, inside, rfl⟩, (holds i _ member e).mpr held⟩

theorem inRange_iff (c : KvCache) (p0 p1 : Int) (reaches : OpenRangeReaches c p1)
    (cell : KvCell) (member : cell ∈ c.cells) (nonneg : 0 ≤ cell.pos) :
    (rangeLow p0 ≤ cell.pos ∧ cell.pos < rangeHigh p1) ↔ InRange p0 p1 cell.pos := by
  have high : cell.pos < rangeHigh p1 ↔ p1 < 0 ∨ cell.pos < p1 := by
    simp only [rangeHigh]
    by_cases open_ : p1 < 0
    · simp [open_, reaches open_ cell member]
    · simp [open_]
  have low : rangeLow p0 ≤ cell.pos ↔ p0 < 0 ∨ p0 ≤ cell.pos := by
    simp only [rangeLow]
    by_cases open_ : p0 < 0
    · simp [open_, nonneg]
    · simp [open_]
  rw [InRange, high, low]

theorem KvCell.not_release_holds (cell : KvCell) (e : Entry) : ¬ cell.release.Holds e := by
  simp [KvCell.Holds, KvCell.release]

theorem KvCell.resetSrc_holds (q : Bool) (i : Nat) (cell : KvCell) (e : Entry) :
    (cell.resetSrc q i).Holds e ↔ cell.Holds e := by
  simp [KvCell.Holds]

theorem KvCell.Exact.nonneg_of_holds (exact_ : cell.Exact) {e : Entry} (holds : cell.Holds e) :
    0 ≤ cell.pos :=
  exact_.mpr ⟨e.1, holds.1⟩

theorem KvCell.dropSeqId_holds (seqId : Int) (cell : KvCell) (e : Entry) :
    (cell.dropSeqId seqId).Holds e ↔ cell.Holds e ∧ ¬ (seqId < 0 ∨ e.1 = seqId) := by
  simp only [KvCell.Holds, KvCell.dropSeqId]
  by_cases all : seqId < 0
  · simp [all]
  · simp only [all, if_false, Finset.mem_erase]
    tauto

theorem seqRmVisit_holds (q : Bool) (seqId p0 p1 : Int) (i : Nat) (cell : KvCell) (e : Entry) :
    (seqRmVisit q seqId p0 p1 i cell).cell.Holds e ↔
      cell.Holds e ∧ ¬ ((seqId < 0 ∨ e.1 = seqId) ∧ (p0 ≤ cell.pos ∧ cell.pos < p1)) := by
  simp only [seqRmVisit]
  split
  · rename_i removes
    simp only [Bool.and_eq_true, decide_eq_true_eq] at removes
    have dropped : (if (cell.dropSeqId seqId).isEmpty then
        ({ cell := (cell.dropSeqId seqId).release.resetSrc q i
           unused := decide (0 ≤ cell.pos)
           freed := true } : CellVisit)
        else { cell := cell.dropSeqId seqId }).cell.Holds e ↔ (cell.dropSeqId seqId).Holds e := by
      split
      · rename_i emptied
        have nothing : ¬ (cell.dropSeqId seqId).Holds e := by
          rw [KvCell.isEmpty_iff] at emptied
          simp [KvCell.Holds, emptied]
        simp [KvCell.resetSrc_holds, nothing, KvCell.not_release_holds]
      · rfl
    rw [dropped, KvCell.dropSeqId_holds]
    tauto
  · rename_i keeps
    simp only [Bool.and_eq_true, Bool.or_eq_true, decide_eq_true_eq, Bool.not_eq_true',
      KvCell.isEmpty_false_iff, KvCell.hasSeqId_iff] at keeps
    constructor
    · rintro holds
      refine ⟨holds, ?_⟩
      rintro ⟨who, where_⟩
      apply keeps
      refine ⟨where_, ?_⟩
      rcases who with all | same
      · exact Or.inl all
      · by_cases all : seqId < 0
        · exact Or.inl all
        · exact Or.inr ⟨⟨⟨e.1, holds.1⟩, not_lt.mp all⟩, same ▸ holds.1⟩
    · exact fun holds => holds.1

theorem seqKeepVisit_holds (q : Bool) (seqId : Int) (i : Nat) (cell : KvCell) (e : Entry) :
    (seqKeepVisit q seqId i cell).cell.Holds e ↔ cell.Holds e ∧ e.1 = seqId := by
  simp only [seqKeepVisit]
  split
  · rename_i member
    rw [KvCell.hasSeqId_iff] at member
    simp only [KvCell.Holds, Finset.mem_singleton]
    constructor
    · rintro ⟨same, pos, token⟩
      exact ⟨⟨same ▸ member, pos, token⟩, same⟩
    · rintro ⟨⟨_, pos, token⟩, same⟩
      exact ⟨same, pos, token⟩
  · rename_i absent
    rw [KvCell.hasSeqId_iff] at absent
    simp only [KvCell.resetSrc_holds, KvCell.not_release_holds, false_iff, not_and]
    rintro ⟨member, _⟩ same
    exact absent (same ▸ member)

theorem seqCpCell_holds (src dst p0 p1 : Int) (cell : KvCell) (e : Entry) :
    (seqCpCell src dst p0 p1 cell).Holds e ↔ cell.Holds e ∨
      (e.1 = dst ∧ cell.Holds (src, e.2) ∧ (p0 ≤ cell.pos ∧ cell.pos < p1)) := by
  simp only [seqCpCell]
  split
  · rename_i hit
    simp only [Bool.and_eq_true, KvCell.hasSeqId_iff, decide_eq_true_eq] at hit
    simp only [KvCell.Holds, Finset.mem_insert]
    tauto
  · rename_i miss
    simp only [Bool.and_eq_true, KvCell.hasSeqId_iff, decide_eq_true_eq] at miss
    simp only [KvCell.Holds]
    tauto

theorem inSeqRange_iff (c : KvCache) (seqId p0 p1 : Int) (reaches : OpenRangeReaches c p1)
    (cell : KvCell) (member : cell ∈ c.cells) (exact_ : cell.Exact) :
    cell.inSeqRange seqId (rangeLow p0) (rangeHigh p1) = true ↔
      seqId ∈ cell.seqId ∧ InRange p0 p1 cell.pos := by
  simp only [KvCell.inSeqRange, Bool.and_eq_true, KvCell.hasSeqId_iff, decide_eq_true_eq]
  constructor
  · rintro ⟨inside, range⟩
    exact ⟨inside, (inRange_iff c p0 p1 reaches cell member (exact_.mpr ⟨_, inside⟩)).mp range⟩
  · rintro ⟨inside, range⟩
    exact ⟨inside, (inRange_iff c p0 p1 reaches cell member (exact_.mpr ⟨_, inside⟩)).mpr range⟩

theorem seqAddVisit_holds (c : KvCache) (mrope : Bool) (seqId p0 p1 delta : Int)
    (reaches : OpenRangeReaches c p1) (i : Nat) (cell : KvCell) (member : cell ∈ c.cells)
    (exact_ : cell.Exact) (e : Entry) :
    (seqAddVisit mrope seqId (rangeLow p0) (rangeHigh p1) delta i cell).cell.Holds e ↔
      e.1 ∈ cell.seqId ∧ e.2.1 = cell.movedPos seqId p0 p1 (· + delta) ∧ e.2.2 = cell.token ∧
        0 ≤ e.2.1 := by
  have hitIff := inSeqRange_iff c seqId p0 p1 reaches cell member exact_
  simp only [seqAddVisit]
  split
  · rename_i hit
    rw [KvCell.movedPos, if_pos (hitIff.mp hit)]
    split
    · rename_i negative
      have below : cell.pos + delta < 0 := negative
      simp only [KvCell.not_release_holds, false_iff]
      rintro ⟨_, pos, _, nonneg⟩
      omega
    · rename_i nonneg
      have above : ¬ cell.pos + delta < 0 := nonneg
      change (e.1 ∈ cell.seqId ∧ e.2.1 = cell.pos + delta ∧ e.2.2 = cell.token) ↔ _
      constructor
      · rintro ⟨id, pos, token⟩
        exact ⟨id, pos, token, by omega⟩
      · rintro ⟨id, pos, token, _⟩
        exact ⟨id, pos, token⟩
  · rename_i miss
    rw [KvCell.movedPos, if_neg (fun hit => miss (hitIff.mpr hit))]
    constructor
    · rintro holds
      refine ⟨holds.1, holds.2.1, holds.2.2, ?_⟩
      rw [holds.2.1]
      exact exact_.nonneg_of_holds holds
    · rintro ⟨id, pos, token, _⟩
      exact ⟨id, pos, token⟩

theorem seqDivVisit_holds (c : KvCache) (mrope : Bool) (seqId p0 p1 : Int) (d : Int)
    (positive : 1 ≤ d) (reaches : OpenRangeReaches c p1) (i : Nat) (cell : KvCell)
    (member : cell ∈ c.cells) (exact_ : cell.Exact) (e : Entry) :
    (seqDivVisit mrope seqId (rangeLow p0) (rangeHigh p1) d i cell).cell.Holds e ↔
      e.1 ∈ cell.seqId ∧ e.2.1 = cell.movedPos seqId p0 p1 (·.tdiv d) ∧ e.2.2 = cell.token ∧
        0 ≤ e.2.1 := by
  have hitIff := inSeqRange_iff c seqId p0 p1 reaches cell member exact_
  have nonneg : ∀ id, id ∈ cell.seqId → 0 ≤ cell.movedPos seqId p0 p1 (·.tdiv d) := by
    intro id inside
    have := exact_.mpr ⟨id, inside⟩
    simp only [KvCell.movedPos]
    split
    · exact Int.tdiv_nonneg this (by omega)
    · exact this
  have moved : (seqDivVisit mrope seqId (rangeLow p0) (rangeHigh p1) d i cell).cell.Holds e ↔
      e.1 ∈ cell.seqId ∧ e.2.1 = cell.movedPos seqId p0 p1 (·.tdiv d) ∧ e.2.2 = cell.token := by
    simp only [seqDivVisit]
    split
    · rename_i hit
      rw [KvCell.movedPos, if_pos (hitIff.mp hit)]
      rfl
    · rename_i miss
      rw [KvCell.movedPos, if_neg (fun hit => miss (hitIff.mpr hit))]
      rfl
  rw [moved]
  constructor
  · rintro ⟨id, pos, token⟩
    exact ⟨id, pos, token, pos ▸ nonneg _ id⟩
  · rintro ⟨id, pos, token, _⟩
    exact ⟨id, pos, token⟩

end LlamaCpp.Kv
