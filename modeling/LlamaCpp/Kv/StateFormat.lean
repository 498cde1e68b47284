import LlamaCpp.Kv.Context
import Mathlib.Data.Finset.Sort

/-!
# The cell metadata of a saved state

The cells that belong to the state are found as ranges of indices and written one after the
other as 32-bit words.  Which words a cell has depends on the model: a token for n-gram
embeddings, the logical position and the M-RoPE planes for a QSA cache, the sequence ids for
the whole cache.  The reader asks for the same words.
-/

set_option autoImplicit false

namespace LlamaCpp.Kv

open List

def qsaCellMetaMagic : Int := 0x51534131

/-- Whether `write_kv_cache` takes the cell. -/
def wanted (seqId : Int) (cell : KvCell) : Bool :=
  (decide (seqId = -1) && !cell.isEmpty) || cell.hasSeqId seqId

/-- The range scan of `write_kv_cache` from index `i` on; `begin_ = size` when no range is
open. -/
def scanRanges (take : KvCell → Bool) (size : Nat) :
    Nat → List KvCell → Nat → List (Nat × Nat)
  | _, [], begin_ => if begin_ ≠ size then [(begin_, size)] else []
  | i, cell :: rest, begin_ =>
    if take cell then scanRanges take size (i + 1) rest (if begin_ = size then i else begin_)
    else if begin_ ≠ size then (begin_, i) :: scanRanges take size (i + 1) rest size
    else scanRanges take size (i + 1) rest size

def cellRanges (c : KvCache) (seqId : Int) : List (Nat × Nat) :=
  scanRanges (wanted seqId) c.size 0 c.cells c.size

def cellCount (c : KvCache) (seqId : Int) : Nat := c.cells.countP (wanted seqId)

/-- The cells from index `first` up to `last`. -/
def cellsBetween (cells : List KvCell) (first last : Nat) : List KvCell :=
  (List.range' first (last - first)).map fun i => cells.getD i {}

def rangeCells (cells : List KvCell) (ranges : List (Nat × Nat)) : List KvCell :=
  ranges.flatMap fun range => cellsBetween cells range.1 range.2

def writtenIds (seqId : Int) (cell : KvCell) : List Int :=
  if seqId = -1 then cell.seqId.sort (· ≤ ·) else []

def writeCell (env : ContextEnv) (qsa : Bool) (seqId : Int) (cell : KvCell) : List Int :=
  cell.pos :: ((writtenIds seqId cell).length : Int) ::
    ((if env.readTokens then [cell.token] else []) ++
      ((if qsa then [cell.qsaPos, cell.posH, cell.posW, cell.posE] else []) ++
        writtenIds seqId cell))

def writeKvCacheMeta (env : ContextEnv) (c : KvCache) (ranges : List (Nat × Nat)) (seqId : Int) :
    List Int :=
  (if c.qsa then [qsaCellMetaMagic] else []) ++
    (rangeCells c.cells ranges).flatMap (writeCell env c.qsa seqId)

def readToken (hasToken : Bool) (words : List Int) : Option (Int × List Int) :=
  if hasToken then
    match words with
    | token :: rest => some (token, rest)
    | [] => none
  else some (tokenNull, words)

def readPlanes (qsa : Bool) (saved : SavedCell) (words : List Int) :
    Option (SavedCell × List Int) :=
  if qsa then
    match words with
    | qsaPos :: posH :: posW :: posE :: rest =>
      some ({ saved with qsaPos := qsaPos, posH := posH, posW := posW, posE := posE }, rest)
    | _ => none
  else some (saved, words)

def readFields (env : ContextEnv) (qsa : Bool) : List Int → Option (SavedCell × Nat × List Int)
  | pos :: nSeqId :: words =>
    match readToken env.readTokens words with
    | some (token, words) =>
      (readPlanes qsa { pos := pos, token := token } words).map fun read =>
        (read.1, nSeqId.toNat, read.2)
    | none => none
  | _ => none

/-- The cells of a sequence state; the inner `none` is a cell with sequence ids. -/
def readSeqCells (env : ContextEnv) (qsa : Bool) : Nat → List Int → Option (Option (List SavedCell))
  | 0, _ => some (some [])
  | k + 1, words =>
    match readFields env qsa words with
    | none => none
    | some (saved, nSeqId, words) =>
      if nSeqId ≠ 0 then some none
      else (readSeqCells env qsa k words).map (Option.map (saved :: ·))

def readAllCells (env : ContextEnv) (qsa : Bool) : Nat → List Int → Option (List SavedCell)
  | 0, _ => some []
  | k + 1, words =>
    match readFields env qsa words with
    | none => none
    | some (saved, nSeqId, words) =>
      if words.length < nSeqId then none
      else (readAllCells env qsa k (words.drop nSeqId)).map
        ({ saved with seqIds := words.take nSeqId } :: ·)

/-- The words after the marker; the inner `none` is a wrong marker. -/
def readMarker (qsa : Bool) (words : List Int) : Option (Option (List Int)) :=
  if qsa then
    match words with
    | marker :: rest => some (if marker = qsaCellMetaMagic then some rest else none)
    | [] => none
  else some (some words)

def checkOpenPangu (openPangu : Bool) : Bool × KvCache → Option (Bool × KvCache)
  | (true, c) => if openPangu && c.head != 0 then none else some (true, c)
  | (false, c) => some (false, c)

/-- The single-sequence branch of `read_kv_cache_meta`. -/
def readSequence (env : ContextEnv) (openPangu : Bool) (c : KvCache) (cellCount : Nat)
    (destSeqId : Int) (words : List Int) : Option (Bool × KvCache) :=
  if cellCount = 0 ∧ openPangu = true then some (false, c)
  else if c.size < cellCount then some (false, c)
  else
    match readSeqCells env c.qsa cellCount words with
    | none => none
    | some none => (kvCacheSeqRm c destSeqId (-1) (-1)).map fun removed => (false, removed.2)
    | some (some saved) => (readSeqMeta env c destSeqId saved).bind (checkOpenPangu openPangu)

/-- `read_kv_cache_meta`: `none` is a failed assertion or a blob that ends too early. -/
def readKvCacheMeta (env : ContextEnv) (openPangu : Bool) (c : KvCache) (cellCount : Nat)
    (destSeqId : Int) (blob : List Int) : Option (Bool × KvCache) :=
  match readMarker c.qsa blob with
  | none => none
  | some none => some (false, c)
  | some (some words) =>
    if destSeqId ≠ -1 then readSequence env openPangu c cellCount destSeqId words
    else if c.size < cellCount then some (false, c)
    else (readAllCells env c.qsa cellCount words).map (readAllMeta env c)

theorem cellsBetween_self (cells : List KvCell) (i : Nat) : cellsBetween cells i i = [] := by
  rw [cellsBetween, Nat.sub_self]
  rfl

theorem cellsBetween_succ (cells : List KvCell) {first i : Nat} (ordered : first ≤ i) :
    cellsBetween cells first (i + 1) = cellsBetween cells first i ++ [cells.getD i {}] := by
  have length : i + 1 - first = i - first + 1 := by omega
  have last : first + (i - first) = i := by omega
  rw [cellsBetween, length, range'_1_concat, map_append, last]
  rfl

theorem rangeCells_scanRanges (take : KvCell → Bool) (cells rest : List KvCell) (i : Nat)
    (within : i ≤ cells.length) (ahead : cells.drop i = rest) (begin_ : Nat)
    (opened : begin_ = cells.length ∨ begin_ < i) :
    rangeCells cells (scanRanges take cells.length i rest begin_) =
      (if begin_ = cells.length then [] else cellsBetween cells begin_ i) ++ rest.filter take := by
  induction rest generalizing i begin_ with
  | nil =>
    have atEnd : i = cells.length := le_antisymm within (drop_eq_nil_iff.mp ahead)
    rw [scanRanges, atEnd]
    by_cases closed : begin_ = cells.length
    · rw [if_neg (not_not.mpr closed), if_pos closed]
      rfl
    · rw [if_pos closed, if_neg closed]
      rfl
  | cons cell rest ih =>
    have inside : i < cells.length := by
      by_contra outside
      rw [drop_eq_nil_of_le (not_lt.mp outside)] at ahead
      cases ahead
    have here : cells.getD i {} = cell := by
      rw [drop_eq_getElem_cons inside] at ahead
      rw [getD_eq_getElem _ _ inside, (List.cons.inj ahead).1]
    have later : cells.drop (i + 1) = rest := by
      rw [← tail_drop, ahead]
      rfl
    rw [scanRanges]
    by_cases taken : take cell = true
    · rw [if_pos taken, filter_cons_of_pos taken]
      by_cases closed : begin_ = cells.length
      · rw [if_pos closed, if_pos closed, ih (i + 1) inside later i (Or.inr (Nat.lt_succ_self i)),
          if_neg (by omega), cellsBetween_succ cells (le_refl i), cellsBetween_self, here]
        rfl
      · rw [if_neg closed, if_neg closed, ih (i + 1) inside later begin_ (Or.inr (by omega)),
          if_neg closed, cellsBetween_succ cells (by omega), here, append_assoc]
        rfl
    · rw [if_neg taken, filter_cons_of_neg taken]
      have fresh := ih (i + 1) inside later cells.length (Or.inl rfl)
      rw [if_pos rfl, nil_append] at fresh
      by_cases closed : begin_ = cells.length
      · rw [if_neg (not_not.mpr closed), if_pos closed, fresh]
        rfl
      · rw [if_pos closed, if_neg closed, rangeCells]
        exact congrArg _ fresh

def writtenCells (c : KvCache) (seqId : Int) : List KvCell := c.cells.filter (wanted seqId)

theorem length_writtenCells (c : KvCache) (seqId : Int) :
    (writtenCells c seqId).length = cellCount c seqId := countP_eq_length_filter.symm

theorem rangeCells_cellRanges (c : KvCache) (seqId : Int) :
    rangeCells c.cells (cellRanges c seqId) = writtenCells c seqId := by
  have scanned := rangeCells_scanRanges (wanted seqId) c.cells c.cells 0 (Nat.zero_le _) rfl
    c.cells.length (Or.inl rfl)
  rwa [if_pos rfl] at scanned

def savedCell (env : ContextEnv) (qsa : Bool) (seqId : Int) (cell : KvCell) : SavedCell :=
  if qsa then
    { pos := cell.pos
      seqIds := writtenIds seqId cell
      token := if env.readTokens then cell.token else tokenNull
      qsaPos := cell.qsaPos
      posH := cell.posH
      posW := cell.posW
      posE := cell.posE }
  else
    { pos := cell.pos
      seqIds := writtenIds seqId cell
      token := if env.readTokens then cell.token else tokenNull }

theorem readFields_writeCell (env : ContextEnv) (qsa : Bool) (seqId : Int) (cell : KvCell)
    (rest : List Int) :
    readFields env qsa (writeCell env qsa seqId cell ++ rest) =
      some ({ savedCell env qsa seqId cell with seqIds := [] }, (writtenIds seqId cell).length,
        writtenIds seqId cell ++ rest) := by
  cases tokens : env.readTokens <;> cases qsa <;>
    simp [writeCell, readFields, readToken, readPlanes, savedCell, tokens]

theorem readAllCells_write (env : ContextEnv) (qsa : Bool) (seqId : Int) (cells : List KvCell)
    (rest : List Int) :
    readAllCells env qsa cells.length (cells.flatMap (writeCell env qsa seqId) ++ rest) =
      some (cells.map (savedCell env qsa seqId)) := by
  induction cells with
  | nil => rfl
  | cons cell cells ih =>
    rw [flatMap_cons, append_assoc, length_cons, readAllCells, readFields_writeCell]
    have enough : ¬ (writtenIds seqId cell ++ (cells.flatMap (writeCell env qsa seqId) ++ rest)).length <
        (writtenIds seqId cell).length := by
      rw [length_append]
      omega
    simp only [if_neg enough, drop_left, take_left, ih, map_cons]
    cases qsa <;> rfl

theorem readSeqCells_write (env : ContextEnv) (qsa : Bool) {seqId : Int} (single : seqId ≠ -1)
    (cells : List KvCell) (rest : List Int) :
    readSeqCells env qsa cells.length (cells.flatMap (writeCell env qsa seqId) ++ rest) =
      some (some (cells.map (savedCell env qsa seqId))) := by
  induction cells with
  | nil => rfl
  | cons cell cells ih =>
    have noIds : writtenIds seqId cell = [] := if_neg single
    rw [flatMap_cons, append_assoc, length_cons, readSeqCells, readFields_writeCell]
    simp only [noIds, nil_append, ih,
      map_cons]
    cases qsa <;> simp [savedCell, noIds]

theorem readMarker_writeKvCacheMeta (env : ContextEnv) (c : KvCache) (seqId : Int) :
    readMarker c.qsa (writeKvCacheMeta env c (cellRanges c seqId) seqId) =
      some (some ((writtenCells c seqId).flatMap (writeCell env c.qsa seqId))) := by
  rw [writeKvCacheMeta, rangeCells_cellRanges]
  cases c.qsa <;> simp [readMarker]

end LlamaCpp.Kv
