import LlamaCpp.Kv.FindSlot
import Mathlib.Data.List.GetD

/-!
# The tokens before a token

The n-gram embeddings read the `n` tokens before each token of a batch from the cells.  A batch
that follows its predecessors cell by cell is read off the cells before the head; any other batch
goes through maps from positions to tokens.
-/

set_option autoImplicit false

namespace LlamaCpp.Kv

open List Option

def BatchToken.seqId (tok : BatchToken) : Int := tok.seqIds.headD 0

/-- The table `result`: the entries of token `i` in a row, that for the distance `n - j` at `j`. -/
def prevTable (batch : Batch) (n : Nat) (entry : Nat → BatchToken → Nat → Int) : List Int :=
  (batch.tokens.zipIdx.map fun item => (List.range n).map fun j => entry item.2 item.1 (n - j)).flatten

section

variable (c : KvCache) (batch : Batch)

/-- `cell_idx`, with the wrap below the first cell. -/
def physicalIndex (i d : Nat) : Int :=
  let cellIdx : Int := c.head + i - d
  if cellIdx < 0 then cellIdx + c.size else cellIdx

def contiguousEntry (i : Nat) (tok : BatchToken) (d : Nat) : Option Int :=
  let pos := tok.pos - d
  if pos < 0 then some tokenNull
  else
    let cellIdx := physicalIndex c i d
    if cellIdx < 0 ∨ c.size ≤ cellIdx then none
    else
      let cell := c.cell cellIdx.toNat
      if cell.pos ≠ pos ∨ cell.hasSeqId tok.seqId = false then none else some cell.token

def contiguousPath (n : Nat) : Option (List Int) :=
  (batch.tokens.zipIdx.mapM fun item =>
    (List.range n).mapM fun j => contiguousEntry c item.2 item.1 (n - j)).map List.flatten

/-- `p_min`. -/
def posMin : Int := batch.tokens.foldl (fun least tok => min least tok.pos) posMax

/-- `p_max`. -/
def posLast : Int := batch.tokens.foldl (fun most tok => max most tok.pos) (-2147483648)

def KvCell.takenFor (cell : KvCell) (id : Int) : Bool :=
  !cell.isEmpty && decide (cell.pos ≤ posLast batch) &&
    (batch.tokens.any fun tok => decide (tok.seqId = id)) && cell.hasSeqId id

/-- `hist`: the token that was put last under a sequence and a position. -/
def hist (w0 id pos : Int) : Option Int :=
  c.cells.foldl (fun (last : Option Int) cell =>
    if cell.takenFor batch id && decide (w0 ≤ cell.pos) && decide (cell.pos = pos) then
      some cell.token
    else last) none

/-- `below`: the last position before the window that a sequence holds, with its token. -/
def below (w0 id : Int) : Option (Int × Int) :=
  c.cells.foldl (fun (last : Option (Int × Int)) cell =>
    if cell.takenFor batch id && decide (cell.pos < w0) then
      match last with
      | none => some (cell.pos, cell.token)
      | some (pos, token) => if pos < cell.pos then some (cell.pos, cell.token) else some (pos, token)
    else last) none

def lookupToken (w0 id pos : Int) : Int :=
  if batch.hasTokens then (hist c batch w0 id pos).getD tokenNull
  else
    match (List.range (pos - w0 + 1).toNat).findSome? fun (k : Nat) => hist c batch w0 id (pos - k) with
    | some token => token
    | none => ((below c batch w0 id).map Prod.snd).getD tokenNull

/-- The positions of the tokens of a sequence in the batch, `seq_idx` with `batch.pos`. -/
def seqPositions (id : Int) : List Int :=
  (batch.tokens.filter fun tok => decide (tok.seqId = id)).map BatchToken.pos

/-- The position that the entry is looked up at; that of an embedding is its predecessor's in the
batch. -/
def prevPos (i : Nat) (tok : BatchToken) (d : Nat) : Int :=
  if batch.hasTokens then tok.pos - d
  else
    let positions := seqPositions batch tok.seqId
    let ord := (batch.tokens.take i).countP fun other => decide (other.seqId = tok.seqId)
    let k : Int := ord - d
    if 0 ≤ k then positions.getD k.toNat 0 else positions.headD 0 + k

def generalEntry (w0 : Int) (i : Nat) (tok : BatchToken) (d : Nat) : Int :=
  let pos := prevPos batch i tok d
  if 0 ≤ pos then lookupToken c batch w0 tok.seqId pos else tokenNull

def generalPath (n : Nat) : List Int :=
  prevTable batch n (generalEntry c batch (posMin batch - n))

/-- `llama_kv_cache_get_prev_tokens`.  The callers pass an `int32_t` as `n`, which a distance
cast to `llama_pos` keeps; a token of several sequences fails the assertion. -/
def kvCacheGetPrevTokens (n : Nat) : Option (List Int) :=
  if n = 0 ∨ batch.tokens = [] then some (List.replicate (batch.tokens.length * n) tokenNull)
  else if batch.tokens.all fun tok => tok.seqIds.length = 1 then
    if batch.hasTokens then
      some ((contiguousPath c batch n).getD (generalPath c batch n))
    else some (generalPath c batch n)
  else none

def storedToken (id pos : Int) : Int :=
  if pos < 0 then tokenNull
  else ((c.cells.find? fun cell => cell.hasSeqId id && decide (cell.pos = pos)).map
    KvCell.token).getD tokenNull

def storedTable (n : Nat) : List Int :=
  prevTable batch n fun _ tok d => storedToken c tok.seqId (tok.pos - d)

def DistinctPositions : Prop :=
  c.cells.Pairwise fun a b => ∀ id ∈ a.seqId, id ∈ b.seqId → a.pos ≠ b.pos

instance : Decidable (DistinctPositions c) :=
  inferInstanceAs (Decidable (c.cells.Pairwise _))

end

theorem mapM_eq_map {α β : Type} {f : α → Option β} (g : α → β) {items : List α} {results : List β}
    (collected : items.mapM f = some results)
    (each : ∀ item ∈ items, ∀ result, f item = some result → result = g item) :
    results = items.map g := by
  induction items generalizing results with
  | nil =>
    cases collected
    rfl
  | cons first rest ih =>
    simp only [mapM_cons, bind_eq_bind, bind_eq_some_iff] at collected
    obtain ⟨result, here, later, more, same⟩ := collected
    cases same
    rw [each first mem_cons_self result here,
      ih more fun item member => each item (mem_cons_of_mem _ member), map_cons]

theorem foldl_last {α β : Type} (test : α → Bool) (value : α → β) (items : List α) (before : Option β) :
    (items.foldl (fun last item => if test item then some (value item) else last) before = before ∧
        ∀ item ∈ items, test item = false) ∨
      ∃ item ∈ items, test item = true ∧
        items.foldl (fun last item => if test item then some (value item) else last) before =
          some (value item) := by
  induction items generalizing before with
  | nil => exact Or.inl ⟨rfl, fun _ impossible => absurd impossible not_mem_nil⟩
  | cons first rest ih =>
    rw [foldl_cons]
    rcases ih (if test first then some (value first) else before) with ⟨kept, none_⟩ | ⟨item, member, passes, last⟩
    · cases hit : test first with
      | true =>
        rw [if_pos hit] at kept
        exact Or.inr ⟨first, mem_cons_self, hit, by exact kept⟩
      | false =>
        rw [hit] at kept
        refine Or.inl ⟨kept, fun item member => ?_⟩
        rcases mem_cons.mp member with here | later
        · rw [here, hit]
        · exact none_ item later
    · exact Or.inr ⟨item, mem_cons_of_mem _ member, passes, last⟩

/-- Folding the positions with `min` or `max` bounds each of them. -/
theorem foldl_bounds {r : Int → Int → Prop} [IsPreorder Int r] {pick : Int → Int → Int}
    (left : ∀ a b, r (pick a b) a) (right : ∀ a b, r (pick a b) b) (tokens : List BatchToken)
    (start : Int) :
    r (tokens.foldl (fun best tok => pick best tok.pos) start) start ∧
      ∀ tok ∈ tokens, r (tokens.foldl (fun best tok => pick best tok.pos) start) tok.pos := by
  induction tokens generalizing start with
  | nil => exact ⟨refl _, fun _ impossible => absurd impossible not_mem_nil⟩
  | cons first rest ih =>
    obtain ⟨bound, each⟩ := ih (pick start first.pos)
    refine ⟨IsTrans.trans _ _ _ bound (left _ _), fun tok member => ?_⟩
    rcases mem_cons.mp member with here | later
    · rw [here]
      exact IsTrans.trans _ _ _ bound (right _ _)
    · exact each tok later

theorem posMin_le {batch : Batch} {tok : BatchToken} (member : tok ∈ batch.tokens) :
    posMin batch ≤ tok.pos :=
  (foldl_bounds min_le_left min_le_right batch.tokens posMax).2 tok member

theorem le_posLast {batch : Batch} {tok : BatchToken} (member : tok ∈ batch.tokens) :
    tok.pos ≤ posLast batch :=
  (foldl_bounds (r := (· ≥ ·)) le_max_left le_max_right batch.tokens _).2 tok member

section

variable {c : KvCache} {batch : Batch} (distinct : DistinctPositions c)

include distinct

variable {id : Int}

theorem DistinctPositions.eq {a b : KvCell} (inA : a ∈ c.cells) (inB : b ∈ c.cells)
    (holdsA : id ∈ a.seqId) (holdsB : id ∈ b.seqId) (same : a.pos = b.pos) : a = b := by
  obtain ⟨i, hi, rfl⟩ := mem_iff_getElem.mp inA
  obtain ⟨j, hj, rfl⟩ := mem_iff_getElem.mp inB
  have apart := pairwise_iff_getElem.mp distinct
  rcases lt_trichotomy i j with before | equal | after
  · exact absurd same (apart i j hi hj before id holdsA holdsB)
  · simp [equal]
  · exact absurd same.symm (apart j i hj hi after id holdsB holdsA)

theorem storedToken_of_mem {cell : KvCell} (member : cell ∈ c.cells) (holds : id ∈ cell.seqId)
    (placed : 0 ≤ cell.pos) : storedToken c id cell.pos = cell.token := by
  rw [storedToken, if_neg (not_lt.mpr placed)]
  cases found : c.cells.find? fun other => other.hasSeqId id && decide (other.pos = cell.pos) with
  | none =>
    have missed := List.find?_eq_none.mp found cell member
    simp [holds] at missed
  | some other =>
    have hit := List.find?_some found
    rw [Bool.and_eq_true, KvCell.hasSeqId_iff, decide_eq_true_eq] at hit
    rw [distinct.eq (mem_of_find?_eq_some found) member hit.1 holds hit.2]
    rfl

theorem contiguousEntry_eq {i : Nat} {tok : BatchToken} {d : Nat} {token : Int}
    (read : contiguousEntry c i tok d = some token) :
    token = storedToken c tok.seqId (tok.pos - d) := by
  simp only [contiguousEntry] at read
  generalize physicalIndex c i d = cellIdx at read
  split at read
  · rename_i negative
    cases read
    rw [storedToken, if_pos negative]
  · split at read
    · cases read
    · rename_i inside
      split at read
      · cases read
      · rename_i agrees
        rw [not_or, not_not, Bool.not_eq_false, KvCell.hasSeqId_iff] at agrees
        cases read
        have room : cellIdx.toNat < c.cells.length := by
          rw [KvCache.size] at inside
          omega
        have member : c.cell cellIdx.toNat ∈ c.cells := by
          rw [KvCache.cell, getD_eq_getElem _ _ room]
          exact getElem_mem room
        rw [← agrees.1, storedToken_of_mem distinct member agrees.2 (by omega)]

theorem hist_getD {w0 pos : Int} (inBatch : ∃ tok ∈ batch.tokens, tok.seqId = id)
    (placed : 0 ≤ pos) (low : w0 ≤ pos) (high : pos ≤ posLast batch) :
    (hist c batch w0 id pos).getD tokenNull = storedToken c id pos := by
  have known : (batch.tokens.any fun tok => decide (tok.seqId = id)) = true := by
    simpa using inBatch
  rcases foldl_last (fun cell : KvCell => cell.takenFor batch id && decide (w0 ≤ cell.pos) &&
      decide (cell.pos = pos)) KvCell.token c.cells none with ⟨kept, none_⟩ | ⟨cell, member, taken, last⟩
  · rw [hist, kept, storedToken, if_neg (not_lt.mpr placed), List.find?_eq_none.mpr]
    · rfl
    · intro cell member hit
      rw [Bool.and_eq_true, KvCell.hasSeqId_iff, decide_eq_true_eq] at hit
      have missed := none_ cell member
      have held : cell.isEmpty = false := (KvCell.isEmpty_false_iff cell).mpr ⟨id, hit.1⟩
      have holds := (KvCell.hasSeqId_iff cell id).mpr hit.1
      simp [KvCell.takenFor, known, held, holds, hit.2, low, high] at missed
  · rw [hist, last, getD_some]
    simp only [KvCell.takenFor, Bool.and_eq_true, decide_eq_true_eq] at taken
    have holds := (KvCell.hasSeqId_iff cell id).mp taken.1.1.2
    rw [← taken.2, storedToken_of_mem distinct member holds (by rw [taken.2]; exact placed)]

theorem generalEntry_eq (hasTokens : batch.hasTokens = true) {n i d : Nat} {tok : BatchToken}
    (member : tok ∈ batch.tokens) (near : d ≤ n) :
    generalEntry c batch (posMin batch - n) i tok d = storedToken c tok.seqId (tok.pos - d) := by
  simp only [generalEntry, prevPos, if_pos hasTokens]
  split
  · rename_i placed
    have least := posMin_le member
    have most := le_posLast member
    rw [lookupToken, if_pos hasTokens]
    exact hist_getD distinct ⟨tok, member, rfl⟩ placed (by omega) (by omega)
  · rename_i negative
    rw [storedToken, if_pos (not_le.mp negative)]

theorem contiguousPath_eq {n : Nat} {result : List Int}
    (read : contiguousPath c batch n = some result) : result = storedTable c batch n := by
  obtain ⟨rows, collected, flat⟩ := map_eq_some_iff.mp read
  have each := mapM_eq_map (fun item : BatchToken × Nat => (List.range n).map fun j =>
    storedToken c item.1.seqId (item.1.pos - (n - j : Nat))) collected fun item _ row here =>
      mapM_eq_map _ here fun j _ token found => contiguousEntry_eq distinct found
  rw [← flat, each]
  rfl

theorem generalPath_eq (hasTokens : batch.hasTokens = true) (n : Nat) :
    generalPath c batch n = storedTable c batch n := by
  rw [generalPath, storedTable, prevTable]
  congr 1
  refine map_congr_left fun item member => map_congr_left fun j _ => ?_
  have inBatch : item.1 ∈ batch.tokens := fst_mem_of_mem_zipIdx member
  exact generalEntry_eq distinct hasTokens inBatch (Nat.sub_le n j)

end

def interleavedCache : KvCache where
  head := 2
  used := 4
  cells := [{ pos := 1, token := 11, seqId := {0} }, { pos := 0, token := 20, seqId := {1} },
    { pos := 2, token := 12, seqId := {0} }, { pos := 2, token := 22, seqId := {1} }]

def interleavedBatch : Batch where
  tokens := [⟨12, 2, [0], 2, 2, 0⟩, ⟨22, 2, [1], 2, 2, 0⟩]

end LlamaCpp.Kv
