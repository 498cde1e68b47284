import LlamaCpp.Kv.Cache

/-!
# Finding a slot and placing a batch

`kvCacheFindSlot` models `llama_kv_cache_find_slot` and `decodeUbatch` the part of
one `llama_decode_internal` step that touches the cells: the search heuristic, the
slot and the head advance.
-/

set_option autoImplicit false

namespace LlamaCpp.Kv

/-- One token of a `llama_batch`; `posH`, `posW` and `posE` are its M-RoPE sections. -/
structure BatchToken where
  token : Int
  pos : Int
  seqIds : List Int
  posH : Int := pos
  posW : Int := pos
  posE : Int := 0
deriving DecidableEq

/-- `hasTokens` is `batch.token != nullptr`. -/
structure Batch where
  tokens : List BatchToken
  hasTokens : Bool := true
deriving DecidableEq

structure RecurrentScan where
  cells : List KvCell
  used : Int
  min : Int
  max : Int

/-- The inner loop over `batch.seq_id[i]`; `false` when a sequence id does not fit. -/
def recurrentSeqs (pos : Int) : List Int → RecurrentScan → Bool × RecurrentScan
  | [], s => (true, s)
  | id :: ids, s =>
    if 0 ≤ id ∧ id < s.cells.length then
      let old := (s.cells.getD id.toNat {}).pos
      recurrentSeqs pos ids
        { cells := s.cells.modify id.toNat fun cell => { cell with pos := pos }
          used := if old < 0 ∧ 0 ≤ pos then s.used + 1 else s.used
          min := if id < s.min then id else s.min
          max := if s.max < id then id else s.max }
    else (false, s)

def recurrentTokens : List BatchToken → RecurrentScan → Bool × RecurrentScan
  | [], s => (true, s)
  | tok :: toks, s =>
    match recurrentSeqs tok.pos tok.seqIds s with
    | (true, s') => recurrentTokens toks s'
    | (false, s') => (false, s')

/-- The recurrent branch of `llama_kv_cache_find_slot`. -/
def findSlotRecurrent (c : KvCache) (batch : Batch) : Bool × KvCache :=
  match recurrentTokens batch.tokens
      { cells := c.cells, used := c.used, min := c.size - 1, max := 0 } with
  | (false, s) => (false, { c with cells := s.cells, used := s.used })
  | (true, s) =>
    (decide (s.min ≤ s.max),
      { c with
        cells := s.cells
        used := s.used
        head := (s.min % 4294967296).toNat
        n := ((s.max - s.min + 1) % 4294967296).toNat })

/-- The index of the first cell with a position among the next `nTokens` cells. -/
def firstPlaced (cells : List KvCell) (head nTokens : Nat) : Option Nat :=
  ((cells.drop head).take nTokens).findIdx? fun cell => decide (0 ≤ cell.pos)

/-- The `while (true)` loop of `llama_kv_cache_find_slot`: whether a slot was found,
and the head the loop leaves. -/
def findSlotLoop (cells : List KvCell) (nTokens : Nat) (fits : nTokens ≤ cells.length)
    (head nTested : Nat) : Bool × Nat :=
  if _wraps : cells.length < head + nTokens then
    findSlotLoop cells nTokens fits 0 (nTested + (cells.length - head))
  else
    match firstPlaced cells head nTokens with
    | none => (true, head)
    | some i =>
      if _spent : cells.length ≤ nTested + (i + 1) then (false, head + (i + 1))
      else findSlotLoop cells nTokens fits (head + (i + 1)) (nTested + (i + 1))
termination_by 2 * (cells.length - nTested) + (if cells.length < head + nTokens then 1 else 0)
decreasing_by
  · simp only [Nat.zero_add, _wraps, if_true]
    split <;> omega
  · split_ifs <;> omega

/-- `qsa_max`: the largest logical position each sequence holds. -/
def qsaMax (cells : List KvCell) (id : Int) : Option Int :=
  cells.foldl (fun (best : Option Int) (cell : KvCell) =>
    if cell.isEmpty || decide (cell.qsaPos < 0) || !cell.hasSeqId id then best
    else some (match best with
      | none => cell.qsaPos
      | some q => max q cell.qsaPos)) none

/-- The logical position given to a token of the sequences `ids`. -/
def qsaLogical (best : Int → Option Int) (ids : List Int) : Int :=
  ids.foldl (fun (logical : Int) id => match best id with
    | none => logical
    | some q => max logical (q + 1)) 0

/-- What the placing loop of `llama_kv_cache_find_slot` reads besides the token. -/
structure PlaceEnv where
  mrope : Bool
  qsa : Bool
  hasTokens : Bool
  embdToken : Int
  setPositionMetadata : Bool

def PlaceEnv.tokenOf (env : PlaceEnv) (tok : BatchToken) : Int :=
  if env.hasTokens then tok.token else env.embdToken

def placeCell (env : PlaceEnv) (best : Int → Option Int) (cell : KvCell) (tok : BatchToken) :
    KvCell :=
  let sections := env.setPositionMetadata && env.mrope
  { cell with
    pos := tok.pos
    token := env.tokenOf tok
    qsaPos := if env.qsa && env.setPositionMetadata then qsaLogical best tok.seqIds else tok.pos
    posH := if sections then tok.posH else tok.pos
    posW := if sections then tok.posW else tok.pos
    posE := if sections then tok.posE else 0
    seqId := cell.seqId ∪ tok.seqIds.toFinset }

/-- The placing loop, over the cells from `cache.head` on. -/
def placeTokens (env : PlaceEnv) :
    (Int → Option Int) → List KvCell → List BatchToken → List KvCell
  | _, cells, [] => cells
  | _, [], _ :: _ => []
  | best, cell :: cells, tok :: toks =>
    let best' : Int → Option Int :=
      if env.qsa && env.setPositionMetadata then fun id =>
        if id ∈ tok.seqIds then some (qsaLogical best tok.seqIds) else best id
      else best
    placeCell env best cell tok :: placeTokens env best' cells toks

def placeEnv (c : KvCache) (batch : Batch) (embdToken : Int) (setPositionMetadata : Bool) :
    PlaceEnv where
  mrope := c.mrope
  qsa := c.qsa
  hasTokens := batch.hasTokens
  embdToken := embdToken
  setPositionMetadata := setPositionMetadata

def kvCacheFindSlot (c : KvCache) (batch : Batch) (embdToken : Int)
    (setPositionMetadata : Bool := true) : Bool × KvCache :=
  let nTokens := batch.tokens.length
  if c.recurrent then findSlotRecurrent c batch
  else if fits : nTokens ≤ c.cells.length then
    match findSlotLoop c.cells nTokens fits c.head 0 with
    | (false, head) => (false, { c with head := head })
    | (true, head) =>
      (true, { c with
        head := head
        cells := c.cells.take head ++
          placeTokens (placeEnv c batch embdToken setPositionMetadata) (qsaMax c.cells)
            (c.cells.drop head) batch.tokens
        used := c.used + nTokens })
  else (false, c)

/-- `if (kv_self.head > kv_self.used + 2*n_tokens) kv_self.head = 0`. -/
def searchFromStart (c : KvCache) (nTokens : Nat) : KvCache :=
  if c.used + 2 * nTokens < c.head then { c with head := 0 } else c

def advanceHead (c : KvCache) (nTokens : Nat) : KvCache :=
  { c with head := if c.size ≤ c.head + nTokens then 0 else c.head + nTokens }

/-- One `llama_decode_internal` step as far as the cells are concerned; a step that
finds no slot returns `1` and leaves the head where the search left it. -/
def decodeUbatch (c : KvCache) (batch : Batch) (embdToken : Int) : Bool × KvCache :=
  match kvCacheFindSlot (searchFromStart c batch.tokens.length) batch embdToken with
  | (true, c') => (true, advanceHead c' batch.tokens.length)
  | (false, c') => (false, c')

end LlamaCpp.Kv
