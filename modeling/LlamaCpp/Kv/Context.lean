import LlamaCpp.Kv.Defrag
import LlamaCpp.Kv.Entries

/-!
# The cache inside a context

`kvCacheUpdate` models `llama_kv_cache_update_internal` (K-shift, state copy and
defragmentation, in that order) and `readKvCache` the cell part of a state restore.
`contextStep` puts them beside the cache operations.
-/

set_option autoImplicit false

namespace LlamaCpp.Kv

open LlamaCpp.Lib

/-- What the model and the context parameters contribute: the rope type is
`LLAMA_ROPE_TYPE_NONE`, the value of `get_can_shift`, the move budget of a defrag
pass, `ple_n_heads > 0` and `llama_n_seq_max`. -/
structure ContextEnv where
  ropeNone : Bool := false
  canShift : Bool := true
  maxMoves : Nat := 8
  readTokens : Bool := false
  nSeqMax : Nat := 1

def KvCell.applyShift (cell : KvCell) : KvCell := { cell with delta := 0 }

def kShift (c : KvCache) : KvCache :=
  { c with hasShift := false, cells := c.cells.map KvCell.applyShift }

def stateCopy (c : KvCache) : KvCache :=
  { c with
    doCopy := false
    cells := c.cells.mapIdx fun i cell => { cell with src := i } }

def copiesStates (c : KvCache) : Bool := (c.recurrent || c.hasQnextStateStorage) && c.doCopy

/-- The state copy of `llama_kv_cache_update_internal`, if one is pending. -/
def applyStateCopy (c : KvCache) : KvCache := if copiesStates c then stateCopy c else c

/-- The defragmentation of `llama_kv_cache_update_internal`, if one is pending. -/
def applyDefrag (env : ContextEnv) (c : KvCache) : Option KvCache :=
  if c.doDefrag then
    (kvCacheDefragInternal c env.maxMoves).map fun s =>
      { c with cells := s.cells, head := s.head, doDefrag := false }
  else some c

def shiftPending (env : ContextEnv) (c : KvCache) : Bool := !env.ropeNone && c.hasShift

def applyShift (env : ContextEnv) (c : KvCache) : KvCache :=
  if shiftPending env c then kShift c else c

def updateRefused (env : ContextEnv) (c : KvCache) : Bool := shiftPending env c && !env.canShift

/-- `llama_kv_cache_update_internal`; `false` is the return value `1`. -/
def kvCacheUpdate (env : ContextEnv) (c : KvCache) : Option (Bool × KvCache) :=
  if updateRefused env c then some (false, c)
  else (applyDefrag env (applyStateCopy (applyShift env c))).map fun c => (true, c)

theorem kvCacheUpdate_cases {env : ContextEnv} {c c' : KvCache} {updated : Bool}
    (success : kvCacheUpdate env c = some (updated, c')) :
    (updateRefused env c = true ∧ c' = c) ∨
      (updateRefused env c = false ∧ applyDefrag env (applyStateCopy (applyShift env c)) = some c') := by
  unfold kvCacheUpdate at success
  split at success
  · rename_i refused
    cases success
    exact Or.inl ⟨refused, rfl⟩
  · rename_i accepted
    obtain ⟨last, ran, equal⟩ := Option.map_eq_some_iff.mp success
    cases equal
    exact Or.inr ⟨(Bool.not_eq_true _).mp accepted, ran⟩

structure SavedCell where
  pos : Int
  seqIds : List Int := []
  token : Int := tokenNull
  qsaPos : Int := pos
  posH : Int := pos
  posW : Int := pos
  posE : Int := 0
deriving DecidableEq

def SavedCell.tokenOf (env : ContextEnv) (saved : SavedCell) : Int :=
  if env.readTokens then saved.token else tokenNull

/-- The QSA metadata that `read_kv_cache_meta` writes over a cell. -/
def SavedCell.restoreQsa (qsa : Bool) (saved : SavedCell) (cell : KvCell) : KvCell :=
  if qsa then
    { cell with
      qsaPos := saved.qsaPos
      posH := saved.posH
      posW := saved.posW
      posE := saved.posE }
  else cell

def restoreBatch (env : ContextEnv) (destSeqId : Int) (saved : List SavedCell) : Batch where
  tokens := saved.map fun s => { token := s.tokenOf env, pos := s.pos, seqIds := [destSeqId] }

/-- Overwrites the cells from index `i` on, one for each saved cell. -/
def overwriteCells (f : SavedCell → KvCell → KvCell) : List KvCell → List SavedCell → List KvCell
  | cells, [] => cells
  | [], _ :: _ => []
  | cell :: cells, s :: saved => f s cell :: overwriteCells f cells saved

def restoredBlock (c : KvCache) (destSeqId : Int) (saved : List SavedCell) : Bool :=
  decide (c.head + saved.length ≤ c.size) &&
    match saved.head?, saved.getLast? with
    | some first, some last =>
      decide ((c.cell c.head).pos = first.pos) &&
        decide ((c.cell (c.head + saved.length - 1)).pos = last.pos) &&
        (c.cell c.head).hasSeqId destSeqId &&
        (c.cell (c.head + saved.length - 1)).hasSeqId destSeqId
    | _, _ => false

/-- The single-sequence branch of `read_kv_cache_meta`.  A saved cell with sequence
ids is refused after the sequence was removed. -/
def readSeqMeta (env : ContextEnv) (c : KvCache) (destSeqId : Int) (saved : List SavedCell) :
    Option (Bool × KvCache) :=
  if c.size < saved.length then some (false, c)
  else
    match kvCacheSeqRm c destSeqId (-1) (-1) with
    | none => none
    | some (_, c) =>
      if saved.all fun s => s.seqIds.isEmpty then
        match kvCacheFindSlot c (restoreBatch env destSeqId saved) tokenNull false with
        | (false, c) => some (false, c)
        | (true, c) =>
          if restoredBlock c destSeqId saved then
            some (true, { c with
              cells := c.cells.take c.head ++
                overwriteCells (SavedCell.restoreQsa c.qsa) (c.cells.drop c.head) saved })
          else none
      else some (false, c)

def SavedCell.restoreCell (env : ContextEnv) (qsa : Bool) (saved : SavedCell) (cell : KvCell) :
    KvCell :=
  let cell := { cell with pos := saved.pos, token := saved.tokenOf env }
  let cell := saved.restoreQsa qsa cell
  { cell with seqId := cell.seqId ∪ saved.seqIds.toFinset }

def SavedCell.seqIdsInRange (nSeqMax : Nat) (saved : SavedCell) : Bool :=
  saved.seqIds.all fun id => decide (0 ≤ id ∧ id < nSeqMax)

/-- The whole-cache branch of `read_kv_cache_meta`.  The caller clears the cache after
an id out of range, so the cells read before it are not kept. -/
def readAllMeta (env : ContextEnv) (c : KvCache) (saved : List SavedCell) : Bool × KvCache :=
  if c.size < saved.length then (false, c)
  else
    let c := kvCacheClear c
    if saved.all (SavedCell.seqIdsInRange env.nSeqMax) then
      (true, { c with
        cells := overwriteCells (SavedCell.restoreCell env c.qsa) c.cells saved
        head := 0
        used := saved.length })
    else (false, c)

/-- The cell part of `read_kv_cache`; `dataRead` is the result of `read_kv_cache_data`.
A failed restore clears what it restored. -/
def readKvCache (env : ContextEnv) (c : KvCache) (destSeqId : Int) (saved : List SavedCell)
    (dataRead : Bool) : Option KvCache :=
  if destSeqId = -1 then
    match readAllMeta env c saved with
    | (restored, c') => some (if restored && dataRead then c' else kvCacheClear c')
  else
    match readSeqMeta env c destSeqId saved with
    | none => none
    | some (restored, c') =>
      if restored && dataRead then some c'
      else (kvCacheSeqRm c' destSeqId (-1) (-1)).map Prod.snd

inductive ContextOp
  | cache (op : CacheOp)
  | defrag
  | update
  | readState (destSeqId : Int) (saved : List SavedCell) (dataRead : Bool)

def contextStep (env : ContextEnv) (c : KvCache) : ContextOp → Option KvCache
  | .cache op => cacheStep c op
  | .defrag => some (kvCacheDefrag c)
  | .update => (kvCacheUpdate env c).map Prod.snd
  | .readState destSeqId saved dataRead => readKvCache env c destSeqId saved dataRead

def ContextOp.Valid : ContextOp → Prop
  | .cache op => op.Valid
  | .readState destSeqId saved _ =>
    ∀ s ∈ saved, 0 ≤ s.pos ∧ (destSeqId = -1 → s.seqIds ≠ [])
  | _ => True

instance : (op : ContextOp) → Decidable op.Valid
  | .cache op => inferInstanceAs (Decidable op.Valid)
  | .readState destSeqId saved _ =>
    inferInstanceAs (Decidable (∀ s ∈ saved, 0 ≤ s.pos ∧ (destSeqId = -1 → s.seqIds ≠ [])))
  | .defrag | .update => isTrue trivial

end LlamaCpp.Kv
