import LlamaCpp.Kv.CompactSwa
import LlamaCpp.Kv.Context

/-!
# Decoding a batch

`decodeInternal` models `llama_decode_internal` as far as the cells are concerned: the
batch is cut into ubatches, and each of them is placed in the cache before the next one is
looked at.  A search that fails returns `1` and takes nothing back, so the cells are those
from before the call exactly when the first ubatch is the one that fails.
-/

set_option autoImplicit false

namespace LlamaCpp.Kv

open List

/-- What the model, the context and the graph of each ubatch contribute.  `causalModel` is
`hparams.causal_attn` and `causalAttn` is `cparams.causal_attn`; `prepared` and `stopped` take
the index of the first token of the ubatch, and `fragmented` is the comparison with
`defrag_thold`. -/
structure DecodeEnv extends ContextEnv where
  nBatch : Nat
  nUbatch : Nat
  nUbatch_pos : 0 < nUbatch
  causalModel : Bool := true
  causalAttn : Bool := true
  hybrid : Bool := false
  qwen4exp : Bool := false
  flashAttn : Bool := false
  embdToken : Int := tokenNull
  swa : SwaConfig := { kvSize := 0, nSwa := 0, pad := 1, nUbatch := nUbatch }
  captureBegins : Bool := true
  outputsReserved : Bool := true
  prepared : Nat → Bool := fun _ => true
  stopped : Nat → Bool := fun _ => false
  fragmented : KvCache → Bool := fun _ => false

/-- The batch as the caller gives it; `hasSeqIds` is that `n_seq_id` and `seq_id` are not
null, otherwise every token holds `all_seq_id`. -/
structure CallerBatch extends Batch where
  hasSeqIds : Bool := true

def mixedRepeat (tokens : List BatchToken) : Bool :=
  let firsts := tokens.filterMap fun tok => tok.seqIds.head?
  tokens.all (fun tok => !tok.seqIds.isEmpty) &&
    firsts.any (fun id => decide (some id ≠ firsts.head?)) && !decide firsts.Nodup

def oneSequenceRun : List BatchToken → Nat
  | [] => 0
  | tok :: toks =>
    match tok.seqIds.head? with
    | none => toks.length + 1
    | some id => (toks.takeWhile fun other => decide (other.seqIds.head? = some id)).length + 1

/-- `n_tokens` after the hybrid test: mixed sequences with a repeated one go token by token. -/
def hybridCut (env : DecodeEnv) (hasSeqIds : Bool) (tokens : List BatchToken) (nTokens : Nat) :
    Nat :=
  if env.hybrid && decide (1 < nTokens) && hasSeqIds && mixedRepeat (tokens.take nTokens) then 1
  else nTokens

/-- `n_tokens` after the QSA test, which keeps an ubatch on one sequence. -/
def sequenceCut (env : DecodeEnv) (hasSeqIds : Bool) (tokens : List BatchToken) (nTokens : Nat) :
    Nat :=
  if env.qwen4exp && decide (1 < nTokens) && hasSeqIds then oneSequenceRun (tokens.take nTokens)
  else nTokens

/-- `n_tokens` of the next ubatch. -/
def ubatchSize (env : DecodeEnv) (hasSeqIds : Bool) (tokens : List BatchToken) : Nat :=
  sequenceCut env hasSeqIds tokens
    (hybridCut env hasSeqIds tokens (min env.nUbatch tokens.length))

inductive DecodeResult
  | success
  /-- `1`: the search over the cells found no room. -/
  | noSlot
  /-- `1`: the recurrent branch of the search refused a sequence id. -/
  | seqRefused
  /-- `1`: `llama_kv_cache_update` returned `1`. -/
  | updateRefused
  | failed
  | stopped
  /-- `-1`: no tokens, or the checkpoint capture cannot begin. -/
  | refused
  | noOutputs
deriving DecidableEq

/-- `kv_self.n`, which a recurrent cache takes from its search. -/
def setAttentionWidth (env : DecodeEnv) (c : KvCache) : KvCache :=
  let pad := getPadding env.flashAttn
  if c.recurrent then c
  else { c with
    n := attentionWidth c pad (kvCacheCellMaxPad c pad (getPadding_pos env.flashAttn)) }

/-- `llama_kv_cache_compact_swa`, which leaves a cache without compacted layers. -/
def compactRows (env : DecodeEnv) (c : KvCache) (nTokens : Nat) : Option KvCache :=
  if c.compacted then
    (kvCacheCompactSwa env.swa (⟨c, fun _ => ()⟩ : SwaCache Unit) nTokens).map SwaCache.kv
  else some c

def qsaAsserts (c : KvCache) (ubatch : Batch) : Bool :=
  !c.qsa || match ubatch.tokens with
    | [] => false
    | tok :: _ => !tok.seqIds.isEmpty

def placeUbatch (env : DecodeEnv) (c : KvCache) (ubatch : Batch) :
    Option (DecodeResult × KvCache) :=
  match kvCacheUpdate env.toContextEnv c with
  | none => none
  | some (false, c) => some (.updateRefused, c)
  | some (true, c) =>
    match kvCacheFindSlot (searchFromStart c ubatch.tokens.length) ubatch env.embdToken with
    | (false, c) => some (if c.recurrent then .seqRefused else .noSlot, c)
    | (true, c) =>
      if qsaAsserts c ubatch then
        (compactRows env (setAttentionWidth env c) ubatch.tokens.length).map (.success, ·)
      else none

def advanceRows (env : DecodeEnv) (c : KvCache) (nTokens : Nat) : Option KvCache :=
  let c := advanceHead c nTokens
  if c.compacted then
    if c.headSwa + nTokens ≤ env.swa.sizeSwa then some { c with headSwa := c.headSwa + nTokens }
    else none
  else some c

def computeUbatch (env : DecodeEnv) (c : KvCache) (curToken nTokens : Nat) :
    Option (DecodeResult × KvCache) :=
  if env.prepared curToken then
    (advanceRows env c nTokens).map (if env.stopped curToken then .stopped else .success, ·)
  else some (.failed, c)

def decodeStep (env : DecodeEnv) (c : KvCache) (curToken : Nat) (ubatch : Batch) :
    Option (DecodeResult × KvCache) :=
  if env.causalModel then
    match placeUbatch env c ubatch with
    | some (.success, c) => computeUbatch env c curToken ubatch.tokens.length
    | other => other
  else computeUbatch env c curToken ubatch.tokens.length

variable {tokens : List BatchToken} {nTokens : Nat} {c c' : KvCache} {env : DecodeEnv}
  {ubatch : Batch} {curToken : Nat}

theorem oneSequenceRun_pos (nonempty : tokens ≠ []) : 0 < oneSequenceRun tokens := by
  cases tokens with
  | nil => exact absurd rfl nonempty
  | cons tok toks =>
    simp only [oneSequenceRun]
    split <;> exact Nat.succ_pos _

theorem hybridCut_pos (env : DecodeEnv) (hasSeqIds : Bool) (tokens : List BatchToken)
    (positive : 0 < nTokens) : 0 < hybridCut env hasSeqIds tokens nTokens := by
  unfold hybridCut
  split
  · exact one_pos
  · exact positive

theorem sequenceCut_pos (env : DecodeEnv) (hasSeqIds : Bool) (nonempty : tokens ≠ [])
    (positive : 0 < nTokens) : 0 < sequenceCut env hasSeqIds tokens nTokens := by
  unfold sequenceCut
  split
  · apply oneSequenceRun_pos
    intro empty
    rcases take_eq_nil_iff.mp empty with zero | none_
    · omega
    · exact nonempty none_
  · exact positive

theorem ubatchSize_pos (env : DecodeEnv) (hasSeqIds : Bool) (nonempty : tokens ≠ []) :
    0 < ubatchSize env hasSeqIds tokens := by
  apply sequenceCut_pos env hasSeqIds nonempty
  apply hybridCut_pos
  exact Nat.lt_min.mpr ⟨env.nUbatch_pos, length_pos_of_ne_nil nonempty⟩

def nextUbatch (env : DecodeEnv) (batch : CallerBatch) (tokens : List BatchToken) : Batch :=
  { batch.toBatch with tokens := tokens.take (ubatchSize env batch.hasSeqIds tokens) }

/-- The loop `for (cur_token = 0; cur_token < n_tokens_all; )`, on the tokens that are left. -/
def decodeLoop (env : DecodeEnv) (batch : CallerBatch) (c : KvCache) (curToken : Nat)
    (tokens : List BatchToken) : Option (DecodeResult × KvCache) :=
  if _finished : tokens = [] then some (.success, c)
  else
    match decodeStep env c curToken (nextUbatch env batch tokens) with
    | some (.success, c) =>
      decodeLoop env batch c (curToken + ubatchSize env batch.hasSeqIds tokens)
        (tokens.drop (ubatchSize env batch.hasSeqIds tokens))
    | other => other
termination_by tokens.length
decreasing_by
  have taken := ubatchSize_pos env batch.hasSeqIds _finished
  have some_ := length_pos_of_ne_nil _finished
  rw [length_drop]
  omega

def queueDefrag (env : DecodeEnv) (c : KvCache) : KvCache :=
  if env.causalAttn && env.fragmented c then kvCacheDefrag c else c

/-- The batch assertions of `llama_decode_internal`. -/
def batchFits (env : DecodeEnv) (batch : CallerBatch) : Bool :=
  decide (batch.tokens.length ≤ env.nBatch) &&
    (env.causalAttn || decide (batch.tokens.length ≤ env.nUbatch))

def decodeInternal (env : DecodeEnv) (c : KvCache) (batch : CallerBatch) :
    Option (DecodeResult × KvCache) :=
  if batch.tokens = [] then some (.refused, c)
  else if !batchFits env batch then none
  else if !env.captureBegins then some (.refused, c)
  else if !env.outputsReserved then some (.noOutputs, c)
  else
    match decodeLoop env batch c 0 batch.tokens with
    | some (.success, c) => some (.success, queueDefrag env c)
    | other => other

def KvCell.content (cell : KvCell) : Int × Finset Int := (cell.pos, cell.seqId)

/-- The cells and the used count are those of `c`. -/
def SameCells (c c' : KvCache) : Prop :=
  c'.cells.map KvCell.content = c.cells.map KvCell.content ∧ c'.used = c.used

instance (c c' : KvCache) : Decidable (SameCells c c') := inferInstanceAs (Decidable (_ ∧ _))

theorem kvCacheUpdate_frame {env : ContextEnv} {updated : Bool}
    (success : kvCacheUpdate env c = some (updated, c')) :
    c'.used = c.used ∧ c'.recurrent = c.recurrent := by
  have start : (applyStateCopy (applyShift env c)).used = c.used ∧
      (applyStateCopy (applyShift env c)).recurrent = c.recurrent := by
    unfold applyStateCopy applyShift
    split <;> split <;> exact ⟨rfl, rfl⟩
  rcases kvCacheUpdate_cases success with ⟨_, same⟩ | ⟨_, ran⟩
  · exact same ▸ ⟨rfl, rfl⟩
  · unfold applyDefrag at ran
    split at ran
    · obtain ⟨s, _, moved⟩ := Option.map_eq_some_iff.mp ran
      rw [← moved]
      exact start
    · rw [Option.some.injEq] at ran
      exact ran ▸ start

theorem searchFromStart_frame (c : KvCache) (nTokens : Nat) :
    (searchFromStart c nTokens).cells = c.cells ∧ (searchFromStart c nTokens).used = c.used ∧
      (searchFromStart c nTokens).recurrent = c.recurrent := by
  unfold searchFromStart
  split <;> exact ⟨rfl, rfl, rfl⟩

theorem kvCacheFindSlot_recurrent {batch : Batch} {embdToken : Int} {found : Bool}
    (search : kvCacheFindSlot c batch embdToken = (found, c')) : c'.recurrent = c.recurrent := by
  simp only [kvCacheFindSlot, findSlotRecurrent] at search
  split at search
  · split at search <;> cases search <;> rfl
  · split at search
    · split at search <;> cases search <;> rfl
    · cases search
      rfl

theorem kvCacheFindSlot_used {batch : Batch} {embdToken : Int} {found : Bool}
    (plain : c.recurrent = false) (search : kvCacheFindSlot c batch embdToken = (found, c')) :
    if found then c'.used = c.used + batch.tokens.length
    else c'.cells = c.cells ∧ c'.used = c.used := by
  have notRecurrent : ¬ c.recurrent = true := by simp [plain]
  simp only [kvCacheFindSlot, if_neg notRecurrent] at search
  split at search
  · split at search <;> cases search
    · exact ⟨rfl, rfl⟩
    · rfl
  · cases search
    exact ⟨rfl, rfl⟩

theorem compactRows_frame (success : compactRows env c nTokens = some c') :
    c'.used = c.used ∧ c'.recurrent = c.recurrent := by
  unfold compactRows at success
  split at success
  · obtain ⟨rows, compacted, equal⟩ := Option.map_eq_some_iff.mp success
    simp only [kvCacheCompactSwa] at compacted
    rw [← equal]
    split_ifs at compacted <;> cases compacted <;> exact ⟨rfl, rfl⟩
  · cases success
    exact ⟨rfl, rfl⟩

theorem setAttentionWidth_frame (env : DecodeEnv) (c : KvCache) :
    (setAttentionWidth env c).used = c.used ∧
      (setAttentionWidth env c).recurrent = c.recurrent := by
  simp only [setAttentionWidth]
  split <;> exact ⟨rfl, rfl⟩

theorem advanceRows_frame (success : advanceRows env c nTokens = some c') :
    c'.used = c.used ∧ c'.recurrent = c.recurrent := by
  simp only [advanceRows] at success
  split_ifs at success <;> cases success <;> exact ⟨rfl, rfl⟩

def SearchesIn (env : DecodeEnv) (c : KvCache) (ubatch : Batch) (start : KvCache) : Prop :=
  ∃ updated, kvCacheUpdate env.toContextEnv c = some (true, updated) ∧
    start = searchFromStart updated ubatch.tokens.length

theorem SearchesIn.frame {start : KvCache} (searches : SearchesIn env c ubatch start) :
    start.used = c.used ∧ start.recurrent = c.recurrent := by
  obtain ⟨updated, update, equal⟩ := searches
  obtain ⟨used, recurrent⟩ := kvCacheUpdate_frame update
  obtain ⟨_, usedStart, recurrentStart⟩ := searchFromStart_frame updated ubatch.tokens.length
  rw [equal]
  exact ⟨usedStart.trans used, recurrentStart.trans recurrent⟩

theorem placeUbatch_cases {result : DecodeResult}
    (step : placeUbatch env c ubatch = some (result, c')) : result = .updateRefused ∨
      ∃ start, SearchesIn env c ubatch start ∧
        ((kvCacheFindSlot start ubatch env.embdToken = (false, c') ∧
            result = if c'.recurrent then .seqRefused else .noSlot) ∨
          (result = .success ∧ ∃ placed,
            kvCacheFindSlot start ubatch env.embdToken = (true, placed) ∧
            c'.used = placed.used ∧ c'.recurrent = placed.recurrent)) := by
  unfold placeUbatch at step
  split at step
  · cases step
  · cases step
    exact Or.inl rfl
  · rename_i updated update
    refine Or.inr ⟨_, ⟨updated, update, rfl⟩, ?_⟩
    split at step
    · rename_i search
      cases step
      exact Or.inl ⟨search, rfl⟩
    · rename_i placed search
      right
      split at step
      · obtain ⟨compacted, success, equal⟩ := Option.map_eq_some_iff.mp step
        cases equal
        obtain ⟨used, recurrent⟩ := compactRows_frame success
        obtain ⟨usedWidth, recurrentWidth⟩ := setAttentionWidth_frame env placed
        exact ⟨rfl, placed, search, used.trans usedWidth, recurrent.trans recurrentWidth⟩
      · cases step

theorem computeUbatch_frame {result : DecodeResult}
    (step : computeUbatch env c curToken nTokens = some (result, c')) :
    result ≠ .noSlot ∧ c'.used = c.used ∧ c'.recurrent = c.recurrent := by
  unfold computeUbatch at step
  split at step
  · obtain ⟨advanced, success, equal⟩ := Option.map_eq_some_iff.mp step
    cases equal
    refine ⟨?_, advanceRows_frame success⟩
    split <;> exact DecodeResult.noConfusion
  · cases step
    exact ⟨DecodeResult.noConfusion, rfl, rfl⟩

theorem decodeStep_noSlot (step : decodeStep env c curToken ubatch = some (.noSlot, c')) :
    env.causalModel = true ∧ c.recurrent = false ∧ ∃ start, SearchesIn env c ubatch start ∧
      kvCacheFindSlot start ubatch env.embdToken = (false, c') := by
  unfold decodeStep at step
  split at step
  · rename_i causal
    split at step
    · exact absurd rfl (computeUbatch_frame step).1
    · rcases placeUbatch_cases step with refused | ⟨start, searches, failed | placed⟩
      · cases refused
      · obtain ⟨search, result⟩ := failed
        have plain : c'.recurrent = false := by
          by_contra recurrent
          rw [if_pos ((Bool.not_eq_false _).mp recurrent)] at result
          cases result
        refine ⟨causal, ?_, start, searches, search⟩
        rw [← searches.frame.2, ← kvCacheFindSlot_recurrent search, plain]
      · cases placed.1
  · exact absurd rfl (computeUbatch_frame step).1

theorem decodeStep_success (causal : env.causalModel = true)
    (step : decodeStep env c curToken ubatch = some (.success, c')) : c'.recurrent = c.recurrent ∧
      (c.recurrent = false → c'.used = c.used + ubatch.tokens.length) ∧
      ∃ start placed, SearchesIn env c ubatch start ∧
        kvCacheFindSlot start ubatch env.embdToken = (true, placed) := by
  rw [decodeStep, if_pos causal] at step
  split at step
  · rename_i placed place
    obtain ⟨_, used, recurrent⟩ := computeUbatch_frame step
    rcases placeUbatch_cases place with refused | ⟨start, searches, failed | found⟩
    · cases refused
    · obtain ⟨_, result⟩ := failed
      split at result <;> cases result
    · obtain ⟨_, cells, search, sameUsed, sameRecurrent⟩ := found
      have same := kvCacheFindSlot_recurrent search
      obtain ⟨startUsed, startRecurrent⟩ := searches.frame
      refine ⟨?_, ?_, start, cells, searches, search⟩
      · rw [recurrent, sameRecurrent, same, startRecurrent]
      · intro plain
        have counted := kvCacheFindSlot_used (startRecurrent.trans plain) search
        rw [used, sameUsed, counted, startUsed]
  · rename_i other
    exact absurd step (other _)

def FirstSearchFails (env : DecodeEnv) (c : KvCache) (batch : CallerBatch) : Prop :=
  ∃ start, SearchesIn env c (nextUbatch env batch batch.tokens) start ∧
    (kvCacheFindSlot start (nextUbatch env batch batch.tokens) env.embdToken).1 = false

def UpdateKeepsCells (env : DecodeEnv) (c : KvCache) : Prop :=
  ∀ updated, kvCacheUpdate env.toContextEnv c = some (true, updated) →
    updated.cells.map KvCell.content = c.cells.map KvCell.content

theorem decodeLoop_noSlot {batch : CallerBatch}
    (run : decodeLoop env batch c curToken tokens = some (.noSlot, c')) :
    env.causalModel = true ∧ c.recurrent = false ∧ c.used ≤ c'.used := by
  fun_induction decodeLoop env batch c curToken tokens with
  | case1 => cases run
  | case2 c curToken tokens _ stored step ih =>
    obtain ⟨causal, plain, le⟩ := ih run
    obtain ⟨recurrent, counted, _⟩ := decodeStep_success causal step
    have plainStart : c.recurrent = false := by rw [← recurrent, plain]
    have used := counted plainStart
    exact ⟨causal, plainStart, by omega⟩
  | case3 c curToken tokens _ other =>
    obtain ⟨causal, plain, start, searches, search⟩ := decodeStep_noSlot run
    have startPlain := searches.frame.2.trans plain
    have left := kvCacheFindSlot_used startPlain search
    exact ⟨causal, plain, by rw [left.2, searches.frame.1]⟩

theorem nextUbatch_length_pos (env : DecodeEnv) (batch : CallerBatch) (nonempty : tokens ≠ []) :
    0 < (nextUbatch env batch tokens).tokens.length := by
  simp only [nextUbatch, length_take]
  exact Nat.lt_min.mpr
    ⟨ubatchSize_pos env batch.hasSeqIds nonempty, length_pos_of_ne_nil nonempty⟩

theorem SearchesIn.unique {first second : KvCache} (one : SearchesIn env c ubatch first)
    (two : SearchesIn env c ubatch second) : first = second := by
  obtain ⟨updated, update, rfl⟩ := one
  obtain ⟨updated', update', rfl⟩ := two
  rw [update, Option.some.injEq, Prod.mk.injEq] at update'
  rw [update'.2]

theorem SearchesIn.sameCells_iff {start : KvCache} (plain : c.recurrent = false)
    (searches : SearchesIn env c ubatch start)
    (search : kvCacheFindSlot start ubatch env.embdToken = (false, c')) :
    SameCells c c' ↔ UpdateKeepsCells env c := by
  have left := kvCacheFindSlot_used (searches.frame.2.trans plain) search
  obtain ⟨updated, update, equal⟩ := searches
  have cells : c'.cells = updated.cells := by
    rw [left.1, equal, (searchFromStart_frame updated ubatch.tokens.length).1]
  have used : c'.used = c.used := by
    rw [left.2, equal, (searchFromStart_frame updated ubatch.tokens.length).2.1,
      (kvCacheUpdate_frame update).1]
  constructor
  · intro same other update'
    rw [update, Option.some.injEq, Prod.mk.injEq] at update'
    rw [← update'.2, ← cells]
    exact same.1
  · intro keeps
    exact ⟨cells ▸ keeps updated update, used⟩

theorem decodeInternal_noSlot {batch : CallerBatch}
    (call : decodeInternal env c batch = some (.noSlot, c')) :
    batch.tokens ≠ [] ∧ decodeLoop env batch c 0 batch.tokens = some (.noSlot, c') := by
  unfold decodeInternal at call
  split at call
  · cases call
  · rename_i nonempty
    refine ⟨nonempty, ?_⟩
    split_ifs at call with _ captureFails reserveFails
    · cases call
    · cases call
    · split at call
      · cases call
      · exact call

/-- A call that found no slot leaves the cells and the used count of before exactly when the
first ubatch was the one that failed and the pending update moved no cell. -/
theorem decode_noSlot_unchanged_iff (env : DecodeEnv) (c c' : KvCache) (batch : CallerBatch)
    (failed : decodeInternal env c batch = some (.noSlot, c')) :
    SameCells c c' ↔ FirstSearchFails env c batch ∧ UpdateKeepsCells env c := by
  obtain ⟨nonempty, run⟩ := decodeInternal_noSlot failed
  rw [decodeLoop, dif_neg nonempty] at run
  split at run
  · rename_i stored step
    obtain ⟨causal, storedPlain, le⟩ := decodeLoop_noSlot run
    obtain ⟨recurrent, counted, start, placed, searches, search⟩ := decodeStep_success causal step
    have used := counted (recurrent.symm.trans storedPlain)
    have some_ := nextUbatch_length_pos env batch nonempty
    constructor
    · intro same
      have grown := same.2
      omega
    · rintro ⟨⟨other, searches', fails⟩, _⟩
      rw [← searches.unique searches', search] at fails
      cases fails
  · obtain ⟨_, plain, start, searches, search⟩ := decodeStep_noSlot run
    rw [searches.sameCells_iff plain search]
    exact ⟨fun keeps => ⟨⟨start, searches, by rw [search]⟩, keeps⟩, And.right⟩

def pairEnv : DecodeEnv where
  nBatch := 6
  nUbatch := 2
  nUbatch_pos := Nat.two_pos

/-- The first `n` tokens of a prompt of sequence 0. -/
def promptBatch (n : Nat) : CallerBatch where
  tokens := (List.range n).map fun i => { token := 1, pos := i, seqIds := [0] }

def cacheAfter (call : Option (DecodeResult × KvCache)) : KvCache :=
  (call.map Prod.snd).getD { cells := [] }

/-- Two tokens and one cell: the first search fails. -/
theorem decode_noSlot_unchanged_iff_at_oneCell :
    FirstSearchFails pairEnv (kvCacheInit {} 1) (promptBatch 2) ∧
      UpdateKeepsCells pairEnv (kvCacheInit {} 1) :=
  (decode_noSlot_unchanged_iff pairEnv (kvCacheInit {} 1)
    (cacheAfter (decodeInternal pairEnv (kvCacheInit {} 1) (promptBatch 2))) (promptBatch 2)
    (by decide +kernel)).mp (by decide +kernel)

def fourStored : KvCache := cacheAfter (decodeInternal pairEnv (kvCacheInit {} 5) (promptBatch 6))

def firstStoredTwice : KvCache := cacheAfter (decodeInternal pairEnv fourStored (promptBatch 1))

/-- Six tokens and five cells: the third search fails and four tokens stay stored, so the
retry with one token stores position 0 again. -/
theorem decode_noSlot_keeps_earlier_ubatches :
    decodeInternal pairEnv (kvCacheInit {} 5) (promptBatch 6) = some (.noSlot, fourStored) ∧
      ¬ SameCells (kvCacheInit {} 5) fourStored ∧
      decodeInternal pairEnv fourStored (promptBatch 1) = some (.success, firstStoredTwice) ∧
      firstStoredTwice.cells.countP (fun cell => decide (cell.content = (0, {0}))) = 2 := by
  refine ⟨?_, ?_, ?_, ?_⟩ <;> decide +kernel

end LlamaCpp.Kv
