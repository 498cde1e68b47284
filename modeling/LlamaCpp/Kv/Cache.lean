import Mathlib.Data.Finset.Basic

/-!
# The KV cache and its cell metadata

`KvCell` and `KvCache` carry the fields of `llama_kv_cell` and `llama_kv_cache`
that the cell bookkeeping reads or writes.  The tensors, their buffers and the
QSA effect report of `llama_kv_cache_seq_rm` are left out.  A `GGML_ASSERT`
that fails is `none`; `used` is an integer, so that a decrement below zero would
show as a negative number.  `llama_pos`, `llama_seq_id` and `llama_token` are `Int`.
-/

set_option autoImplicit false

namespace LlamaCpp.Kv

/-- `std::numeric_limits<llama_pos>::max()`. -/
def posMax : Int := 2147483647

def tokenNull : Int := -1

@[ext]
structure KvCell where
  pos : Int := -1
  delta : Int := 0
  src : Int := 0
  token : Int := tokenNull
  qsaPos : Int := -1
  posH : Int := 0
  posW : Int := 0
  posE : Int := 0
  seqId : Finset Int := ∅

instance : DecidableEq KvCell := fun _ _ => decidable_of_iff' _ KvCell.ext_iff

namespace KvCell

def hasSeqId (cell : KvCell) (id : Int) : Bool := decide (id ∈ cell.seqId)

def isEmpty (cell : KvCell) : Bool := decide (cell.seqId = ∅)

/-- The assignments that free a cell in `seq_rm`, `seq_keep` and `seq_add`:
everything but `delta`, `src` and (in `seq_rm`) the already empty `seq_id`. -/
def release (cell : KvCell) : KvCell :=
  { cell with
    pos := -1
    token := tokenNull
    qsaPos := -1
    posH := 0
    posW := 0
    posE := 0
    seqId := ∅ }

/-- `if (has_qnext_state) cells[i].src = i`. -/
def resetSrc (hasQnextState : Bool) (i : Nat) (cell : KvCell) : KvCell :=
  if hasQnextState then { cell with src := i } else cell

@[simp] theorem hasSeqId_iff (cell : KvCell) (id : Int) :
    cell.hasSeqId id = true ↔ id ∈ cell.seqId := by
  simp [hasSeqId]

@[simp] theorem isEmpty_iff (cell : KvCell) : cell.isEmpty = true ↔ cell.seqId = ∅ := by
  simp [isEmpty]

@[simp] theorem isEmpty_false_iff (cell : KvCell) :
    cell.isEmpty = false ↔ cell.seqId.Nonempty := by
  simp [isEmpty, Finset.nonempty_iff_ne_empty]

@[simp] theorem resetSrc_pos (q : Bool) (i : Nat) (cell : KvCell) :
    (cell.resetSrc q i).pos = cell.pos := by
  cases q <;> rfl

@[simp] theorem resetSrc_token (q : Bool) (i : Nat) (cell : KvCell) :
    (cell.resetSrc q i).token = cell.token := by
  cases q <;> rfl

@[simp] theorem resetSrc_delta (q : Bool) (i : Nat) (cell : KvCell) :
    (cell.resetSrc q i).delta = cell.delta := by
  cases q <;> rfl

@[simp] theorem resetSrc_seqId (q : Bool) (i : Nat) (cell : KvCell) :
    (cell.resetSrc q i).seqId = cell.seqId := by
  cases q <;> rfl

end KvCell

/-- `size` of the source is the length of `cells`, which `llama_kv_cache_init`
fixes for good.  `qnextSlots` is the value of `llama_kv_qnext_state_slots` and
`compacted` that of `any_compacted`. -/
@[ext]
structure KvCache where
  hasShift : Bool := false
  doDefrag : Bool := false
  doCopy : Bool := false
  recurrent : Bool := false
  mrope : Bool := false
  qsa : Bool := false
  sLPositionStrict : Bool := false
  compacted : Bool := false
  qnextSlots : Nat := 0
  head : Nat := 0
  used : Int := 0
  n : Nat := 0
  sinkRows : Nat := 0
  windowSwa : Nat := 0
  headSwa : Nat := 0
  posBaseSwa : Int := 0
  cells : List KvCell

instance : DecidableEq KvCache := fun _ _ => decidable_of_iff' _ KvCache.ext_iff

namespace KvCache

def size (c : KvCache) : Nat := c.cells.length

/-- `cache.cells[i]`. -/
def cell (c : KvCache) (i : Nat) : KvCell := c.cells.getD i {}

/-- `(uint32_t) seq_id < cache.size`. -/
def seqIdFits (c : KvCache) (id : Int) : Bool := decide (0 ≤ id ∧ id < c.size)

def hasQnextStateStorage (c : KvCache) : Bool :=
  !c.sLPositionStrict && decide (0 < c.qnextSlots)

def qnextSeqIdInRange (c : KvCache) (id : Int) : Bool :=
  decide (0 < c.qnextSlots ∧ 0 ≤ id ∧ id < c.qnextSlots)

def liveSwa (c : KvCache) : Nat := c.headSwa - c.sinkRows

end KvCache

/-- What `llama_kv_cache_init` takes from the model and the context parameters. -/
structure KvConfig where
  recurrent : Bool := false
  hybrid : Bool := false
  mrope : Bool := false
  qsa : Bool := false
  sLPositionStrict : Bool := false
  hasStateRows : Bool := false
  nSeqMax : Nat := 1

def qwen3nextStateSlots (nSeqMax kvSize : Nat) : Nat := min (max 1 nSeqMax) kvSize

/-- The cell bookkeeping of `llama_kv_cache_init` without compacted layers. -/
def kvCacheInit (cfg : KvConfig) (kvSize : Nat) : KvCache where
  recurrent := cfg.recurrent
  mrope := cfg.mrope
  qsa := cfg.qsa
  sLPositionStrict := cfg.sLPositionStrict
  qnextSlots := if cfg.hasStateRows then qwen3nextStateSlots cfg.nSeqMax kvSize else 0
  cells := (List.range kvSize).map fun (i : Nat) =>
    if cfg.recurrent || cfg.hybrid then { src := (i : Int) } else {}

def kvCacheClear (c : KvCache) : KvCache :=
  { c with
    cells := c.cells.mapIdx fun i cell => { cell.release with src := i }
    head := 0
    used := 0
    headSwa := c.sinkRows
    posBaseSwa := 0 }

/-- What one iteration of a `for (i < cache.size)` pass does: the rewritten cell,
and whether the iteration takes the cell off `used`, offers it as `new_head` or
raises `has_shift`. -/
structure CellVisit where
  cell : KvCell
  unused : Bool := false
  freed : Bool := false
  shifted : Bool := false

structure Sweep where
  cells : List KvCell
  used : Int
  newHead : Option Nat
  hasShift : Bool

/-- The passes of `seq_rm`, `seq_keep`, `seq_add` and `seq_div` from index `i` on.
`newHead = none` stands for `new_head == cache.size`. -/
def sweepFrom (visit : Nat → KvCell → CellVisit) :
    Nat → List KvCell → Int → Option Nat → Bool → Sweep
  | _, [], used, newHead, hasShift => ⟨[], used, newHead, hasShift⟩
  | i, cell :: rest, used, newHead, hasShift =>
    let v := visit i cell
    let tail := sweepFrom visit (i + 1) rest (if v.unused then used - 1 else used)
      (if v.freed then newHead.or (some i) else newHead) (hasShift || v.shifted)
    { tail with cells := v.cell :: tail.cells }

def KvCache.sweep (c : KvCache) (visit : Nat → KvCell → CellVisit) : Sweep :=
  sweepFrom visit 0 c.cells c.used none c.hasShift

/-- `if (new_head != cache.size && new_head < cache.head) cache.head = new_head`. -/
def lowerHead (head : Nat) : Option Nat → Nat
  | some newHead => if newHead < head then newHead else head
  | none => head

/-- `if (p0 < 0) p0 = 0`. -/
def rangeLow (p0 : Int) : Int := if p0 < 0 then 0 else p0

/-- `if (p1 < 0) p1 = std::numeric_limits<llama_pos>::max()`. -/
def rangeHigh (p1 : Int) : Int := if p1 < 0 then posMax else p1

/-- The recurrent-model guard of `llama_kv_cache_seq_rm`, on the normalised range. -/
def recurrentRmRefused (c : KvCache) (seqId : Int) (p0 p1 : Int) : Bool :=
  if (c.size : Int) ≤ seqId then true
  else if 0 ≤ seqId then
    let pos := (c.cell seqId.toNat).pos
    decide ((0 < p0 ∧ p0 ≤ pos) ∨ (0 < p1 ∧ p1 ≤ pos))
  else decide (p0 ≠ p1 ∧ (p0 ≠ 0 ∨ p1 ≠ posMax))

inductive CompactRm
  | keep
  | refuse
  | assertFailed
  | apply (head : Nat) (base : Int)

/-- The compacted-window guard of `llama_kv_cache_seq_rm`, on the normalised range. -/
def compactRm (c : KvCache) (seqId : Int) (p0 p1 : Int) : CompactRm :=
  if c.compacted && decide (seqId ≤ 0) && decide (p0 < p1) then
    let curEnd := c.posBaseSwa + c.liveSwa
    if c.liveSwa = 0 ∧ c.posBaseSwa ≠ 0 then .assertFailed
    else if p0 < curEnd ∧ c.posBaseSwa < p1 then
      if p1 < curEnd then .refuse
      else if p0 = 0 then .apply c.sinkRows 0
      else if c.posBaseSwa = 0 ∨ c.posBaseSwa + c.windowSwa ≤ p0 then
        .apply (c.sinkRows + (p0 - c.posBaseSwa).toNat) c.posBaseSwa
      else .refuse
    else .keep
  else .keep

/-- `seq_id.clear()` for a negative id, `seq_id.erase(seq_id)` otherwise. -/
def KvCell.dropSeqId (seqId : Int) (cell : KvCell) : KvCell :=
  { cell with seqId := if seqId < 0 then ∅ else cell.seqId.erase seqId }

/-- One iteration of `llama_kv_cache_seq_rm`, on the normalised range. -/
def seqRmVisit (hasQnextState : Bool) (seqId : Int) (p0 p1 : Int) (i : Nat) (cell : KvCell) :
    CellVisit :=
  let inRange := decide (p0 ≤ cell.pos ∧ cell.pos < p1)
  let targetMember := !cell.isEmpty && decide (0 ≤ seqId) && cell.hasSeqId seqId
  if inRange && (decide (seqId < 0) || targetMember) then
    if (cell.dropSeqId seqId).isEmpty then
      { cell := (cell.dropSeqId seqId).release.resetSrc hasQnextState i
        unused := decide (0 ≤ cell.pos)
        freed := true }
    else { cell := cell.dropSeqId seqId }
  else { cell := cell }

/-- `llama_kv_cache_seq_rm` with `effect == nullptr`. -/
def kvCacheSeqRm (c : KvCache) (seqId : Int) (p0 p1 : Int) : Option (Bool × KvCache) :=
  let p0 := rangeLow p0
  let p1 := rangeHigh p1
  if c.recurrent && recurrentRmRefused c seqId p0 p1 then some (false, c)
  else
    let s := c.sweep (seqRmVisit c.hasQnextStateStorage seqId p0 p1)
    let c' := { c with cells := s.cells, used := s.used, head := lowerHead c.head s.newHead }
    match compactRm c seqId p0 p1 with
    | .assertFailed => none
    | .refuse => some (false, c)
    | .keep => some (true, c')
    | .apply head base => some (true, { c' with headSwa := head, posBaseSwa := base })

def KvCache.modifyCell (c : KvCache) (i : Nat) (f : KvCell → KvCell) : KvCache :=
  { c with cells := c.cells.modify i f }

def kvCacheSeqCpRecurrent (c : KvCache) (seqIdSrc seqIdDst : Int) : Option KvCache :=
  if c.seqIdFits seqIdDst && c.seqIdFits seqIdSrc then
    let from_ := (c.cell seqIdSrc.toNat).src
    if c.seqIdFits from_ then
      let c := c.modifyCell seqIdDst.toNat fun cell => { cell with src := from_ }
      let keep := (c.cell from_.toNat).hasSeqId from_
      let c := c.modifyCell seqIdDst.toNat fun cell =>
        { cell with seqId := if keep then insert seqIdDst cell.seqId else cell.seqId.erase seqIdDst }
      let pos := (c.cell from_.toNat).pos
      some { c.modifyCell seqIdDst.toNat (fun cell => { cell with pos := pos }) with doCopy := true }
    else none
  else some c

/-- The guard under which `llama_kv_cache_seq_cp` records a state source. -/
def recordsStateSource (c : KvCache) (seqIdSrc seqIdDst : Int) : Bool :=
  c.hasQnextStateStorage && c.qnextSeqIdInRange seqIdDst && c.qnextSeqIdInRange seqIdSrc &&
    c.seqIdFits seqIdDst && c.seqIdFits seqIdSrc

/-- The cell pass of `llama_kv_cache_seq_cp`, on the normalised range. -/
def seqCpCell (seqIdSrc seqIdDst : Int) (p0 p1 : Int) (cell : KvCell) : KvCell :=
  if cell.hasSeqId seqIdSrc && decide (p0 ≤ cell.pos ∧ cell.pos < p1) then
    { cell with seqId := insert seqIdDst cell.seqId }
  else cell

/-- `llama_kv_cache_seq_cp`.  Recording a state source overwrites `seq_id_src`,
and the cell pass below it reads the overwritten variable. -/
def kvCacheSeqCp (c : KvCache) (seqIdSrc seqIdDst : Int) (p0 p1 : Int) : Option KvCache :=
  let p0 := rangeLow p0
  let p1 := rangeHigh p1
  if c.recurrent then kvCacheSeqCpRecurrent c seqIdSrc seqIdDst
  else
    let copyCells (c : KvCache) (src : Int) : KvCache :=
      { c with head := 0, cells := c.cells.map (seqCpCell src seqIdDst p0 p1) }
    if recordsStateSource c seqIdSrc seqIdDst then
      let from_ := (c.cell seqIdSrc.toNat).src
      if c.seqIdFits from_ then
        let c := c.modifyCell seqIdDst.toNat fun cell => { cell with src := from_ }
        some (copyCells { c with doCopy := true } from_)
      else none
    else some (copyCells c seqIdSrc)

/-- One iteration of `llama_kv_cache_seq_keep`. -/
def seqKeepVisit (hasQnextState : Bool) (seqId : Int) (i : Nat) (cell : KvCell) : CellVisit :=
  if cell.hasSeqId seqId then { cell := { cell with seqId := {seqId} } }
  else
    { cell := cell.release.resetSrc hasQnextState i
      unused := decide (0 ≤ cell.pos)
      freed := true }

def kvCacheSeqKeep (c : KvCache) (seqId : Int) : KvCache :=
  let s := c.sweep (seqKeepVisit c.hasQnextStateStorage seqId)
  { c with cells := s.cells, used := s.used, head := lowerHead c.head s.newHead }

/-- The cells that `llama_kv_cache_seq_add` and `llama_kv_cache_seq_div` move. -/
def KvCell.inSeqRange (seqId : Int) (p0 p1 : Int) (cell : KvCell) : Bool :=
  cell.hasSeqId seqId && decide (p0 ≤ cell.pos ∧ cell.pos < p1)

/-- The M-RoPE assertion of `llama_kv_cache_seq_add` and `llama_kv_cache_seq_div`. -/
def textEquivalent (c : KvCache) (seqId : Int) (p0 p1 : Int) : Bool :=
  c.cells.all fun cell => !cell.inSeqRange seqId p0 p1 ||
    decide (cell.posH = cell.pos ∧ cell.posW = cell.pos ∧ cell.posE = 0)

def KvCell.addDelta (mrope : Bool) (delta : Int) (cell : KvCell) : KvCell :=
  { cell with
    pos := cell.pos + delta
    delta := cell.delta + delta
    posH := if mrope then cell.posH + delta else cell.posH
    posW := if mrope then cell.posW + delta else cell.posW }

def KvCell.divide (mrope : Bool) (d : Int) (cell : KvCell) : KvCell :=
  { cell with
    pos := cell.pos.tdiv d
    delta := cell.delta + (cell.pos.tdiv d - cell.pos)
    posH := if mrope then cell.posH.tdiv d else cell.posH
    posW := if mrope then cell.posW.tdiv d else cell.posW }

/-- One iteration of `llama_kv_cache_seq_add`, on the normalised range. -/
def seqAddVisit (mrope : Bool) (seqId : Int) (p0 p1 delta : Int) (_i : Nat) (cell : KvCell) :
    CellVisit :=
  if cell.inSeqRange seqId p0 p1 then
    if (cell.addDelta mrope delta).pos < 0 then
      { cell := (cell.addDelta mrope delta).release
        unused := !(cell.addDelta mrope delta).isEmpty
        freed := true
        shifted := true }
    else { cell := cell.addDelta mrope delta, shifted := true }
  else { cell := cell }

/-- The recurrent branch shared by `llama_kv_cache_seq_add` and `llama_kv_cache_seq_div`. -/
def recurrentReposition (c : KvCache) (seqId : Int) (p0 p1 : Int) (f : Int → Int) : KvCache :=
  if c.seqIdFits seqId && (c.cell seqId.toNat).inSeqRange seqId p0 p1 then
    c.modifyCell seqId.toNat fun cell => { cell with pos := f cell.pos }
  else c

def kvCacheSeqAdd (c : KvCache) (seqId : Int) (p0 p1 delta : Int) : Option KvCache :=
  let p0 := rangeLow p0
  let p1 := rangeHigh p1
  if c.sLPositionStrict || c.compacted then none
  else if p0 = p1 then some c
  else if c.recurrent then some (recurrentReposition c seqId p0 p1 (· + delta))
  else if c.mrope && !textEquivalent c seqId p0 p1 then none
  else
    let s := c.sweep (seqAddVisit c.mrope seqId p0 p1 delta)
    some { c with
      cells := s.cells
      used := s.used
      hasShift := s.hasShift
      head := s.newHead.getD 0 }

/-- One iteration of `llama_kv_cache_seq_div`, on the normalised range. -/
def seqDivVisit (mrope : Bool) (seqId : Int) (p0 p1 : Int) (d : Int) (_i : Nat) (cell : KvCell) :
    CellVisit :=
  if cell.inSeqRange seqId p0 p1 then
    { cell := cell.divide mrope d, shifted := true }
  else { cell := cell }

def kvCacheSeqDiv (c : KvCache) (seqId : Int) (p0 p1 : Int) (d : Int) : Option KvCache :=
  let p0 := rangeLow p0
  let p1 := rangeHigh p1
  if c.sLPositionStrict || c.compacted then none
  else if p0 = p1 then some c
  else if c.recurrent then some (recurrentReposition c seqId p0 p1 (·.tdiv d))
  else if c.mrope && !textEquivalent c seqId p0 p1 then none
  else
    let s := c.sweep (seqDivVisit c.mrope seqId p0 p1 d)
    some { c with cells := s.cells, hasShift := s.hasShift }

/-- `llama_kv_cache_defrag` only records the request; the pass runs in the next update. -/
def kvCacheDefrag (c : KvCache) : KvCache :=
  if c.sLPositionStrict || c.compacted then c else { c with doDefrag := true }

end LlamaCpp.Kv
