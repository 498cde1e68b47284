import LlamaCpp.Kv.CellMax
import LlamaCpp.Lib.Relocation

/-!
# Defragmentation

`kvCacheDefragInternal` models the cell moves of `llama_kv_cache_defrag_internal`.
The graph that moves the K and V rows along, and the remapping of the QSA
selections by `remapCellIdAfterDefrag`, happen after the moves and read only `ids`
and the cells.  `maxMoves` is the budget derived from the size of that graph.
-/

set_option autoImplicit false

namespace LlamaCpp.Kv

open LlamaCpp.Lib List

structure DefragState where
  cells : List KvCell
  ids : List Nat
  head : Nat
  nMoves : Nat

namespace DefragState

def cell (s : DefragState) (i : Nat) : KvCell := s.cells.getD i {}

/-- `ids[i]`, for a cell below `nKv`. -/
def id (s : DefragState) (nKv i : Nat) : Nat := s.ids.getD i nKv

def movable (s : DefragState) (nKv i : Nat) : Bool :=
  !(s.cell i).isEmpty && decide (s.id nKv i = nKv)

/-- Cell `i` goes to `d`; a default cell stays behind and the head moves to `nUsed`. -/
def move (s : DefragState) (nUsed : Nat) (cont : Bool) (i d : Nat) : DefragState where
  cells := (s.cells.set d (s.cell i)).set i {}
  ids := s.ids.set i d
  head := nUsed
  nMoves := if cont then s.nMoves else s.nMoves + 1

end DefragState

/-- `while (i0 + nh < n_used && cells[i0 + nh].is_empty()) nh++`. -/
def holeSize (s : DefragState) (nUsed i0 nh : Nat) : Nat :=
  if i0 + nh < nUsed ∧ (s.cell (i0 + nh)).isEmpty = true then holeSize s nUsed i0 (nh + 1) else nh
termination_by nUsed - (i0 + nh)

theorem le_holeSize (s : DefragState) (nUsed i0 nh : Nat) : nh ≤ holeSize s nUsed i0 nh := by
  fun_induction holeSize s nUsed i0 nh with
  | case1 nh _ ih => omega
  | case2 nh _ => exact le_refl _

/-- `for (; is > i0; --is)`: the index and the number of movable cells it stops with. -/
def scanBack (s : DefragState) (nKv i0 nh : Nat) : Nat → Nat → Nat × Nat
  | 0, nf => (0, nf)
  | is + 1, nf =>
    if i0 < is + 1 then
      if s.movable nKv (is + 1) then
        if nf + 1 = nh then (is + 1, nf + 1) else scanBack s nKv i0 nh is (nf + 1)
      else scanBack s nKv i0 nh is nf
    else (is + 1, nf)

/-- `for (; i1 < n_kv; ++i1)`: moves the cells found into the hole; `true` is `stop`. -/
def moveCells (maxMoves nKv nUsed i0 nh i1 nf : Nat) (cont : Bool) (s : DefragState) :
    Bool × DefragState :=
  if i1 < nKv then
    if s.movable nKv i1 then
      if nf + 1 = nh then (false, s.move nUsed cont i1 (i0 + nf))
      else moveCells maxMoves nKv nUsed i0 nh (i1 + 1) (nf + 1) true
        (s.move nUsed cont i1 (i0 + nf))
    else if s.nMoves = maxMoves then (true, s)
    else moveCells maxMoves nKv nUsed i0 nh (i1 + 1) nf false s
  else (false, s)
termination_by nKv - i1

/-- The loop over `i0`; `none` when `nf == nh` fails. -/
def defragLoop (maxMoves nKv nUsed i0 : Nat) (s : DefragState) : Option DefragState :=
  if _below : i0 < nUsed then
    if (s.cell i0).isEmpty then
      let nh := holeSize s nUsed i0 1
      let (is, nf) := scanBack s nKv i0 nh (nKv - 1) 0
      if nf = nh then
        let (stop, s') := moveCells maxMoves nKv nUsed i0 nh is 0 false s
        if stop || decide (s'.nMoves = maxMoves) then some s'
        else defragLoop maxMoves nKv nUsed (i0 + nh) s'
      else none
    else defragLoop maxMoves nKv nUsed (i0 + 1) { s with ids := s.ids.set i0 i0 }
  else some s
termination_by nUsed - i0
decreasing_by
  · have := le_holeSize s nUsed i0 1
    omega
  · omega

/-- `llama_kv_cache_defrag_internal` up to the graph; `c.used` is read as `uint32_t`. -/
def kvCacheDefragInternal (c : KvCache) (maxMoves : Nat) : Option DefragState :=
  defragLoop maxMoves (kvCacheCellMax c) c.used.toNat 0
    { cells := c.cells
      ids := List.replicate (kvCacheCellMax c) (kvCacheCellMax c)
      head := c.head
      nMoves := 0 }

/-- `llama_kv_cache::remap_cell_id_after_defrag`, on the cells after the pass. -/
def remapCellIdAfterDefrag (cells : List KvCell) (ids : List Nat) (oldId : Nat) : Int :=
  if ids.length ≤ oldId then -1
  else if ids.getD oldId 0 < ids.length then ids.getD oldId 0
  else if oldId < cells.length ∧ (cells.getD oldId {}).isEmpty = false then oldId
  else -1

/-- Each non-empty cell has a position and `used` counts them. -/
structure UsedExact (c : KvCache) : Prop where
  placed : ∀ cell ∈ c.cells, cell.seqId.Nonempty → 0 ≤ cell.pos
  used : c.used = c.cells.countP (!·.isEmpty)

/-- `ids[i] == i || ids[i] == n_kv` marks a cell that is not moved. -/
def Moves (ids : List Nat) (i : Nat) : Prop :=
  i < ids.length ∧ ids.getD i 0 ≠ i ∧ ids.getD i 0 ≠ ids.length

instance (ids : List Nat) (i : Nat) : Decidable (Moves ids i) :=
  inferInstanceAs (Decidable (i < ids.length ∧ ids.getD i 0 ≠ i ∧ ids.getD i 0 ≠ ids.length))

/-- The index of old cell `i` after a pass that left `ids`. -/
def newIndex (ids : List Nat) (i : Nat) : Nat := if Moves ids i then ids.getD i 0 else i

theorem scanBack_spec (s : DefragState) (nKv i0 nh is nf : Nat) (wanted : nf < nh)
    (enough : nh + Nat.count (fun i => s.movable nKv i = true) (i0 + 1) ≤
      nf + Nat.count (fun i => s.movable nKv i = true) (is + 1)) :
    ∃ is', scanBack s nKv i0 nh is nf = (is', nh) ∧ i0 < is' ∧ is' ≤ is ∧
      s.movable nKv is' = true ∧ nh + Nat.count (fun i => s.movable nKv i = true) is' =
        nf + Nat.count (fun i => s.movable nKv i = true) (is + 1) := by
  induction is generalizing nf with
  | zero =>
    have monotone := Nat.count_monotone (fun i => s.movable nKv i = true)
      (show 0 + 1 ≤ i0 + 1 by omega)
    omega
  | succ is ih =>
    have above : i0 < is + 1 := by
      by_contra below
      have monotone := Nat.count_monotone (fun i => s.movable nKv i = true)
        (show is + 1 + 1 ≤ i0 + 1 by omega)
      omega
    have step := Nat.count_succ (fun i => s.movable nKv i = true) (is + 1)
    simp only [scanBack, if_pos above]
    by_cases found : s.movable nKv (is + 1) = true
    · rw [if_pos found] at step ⊢
      by_cases last : nf + 1 = nh
      · rw [if_pos last]
        exact ⟨is + 1, by rw [last], above, le_refl _, found, by omega⟩
      · rw [if_neg last]
        obtain ⟨is', result, low, high, hit, balance⟩ := ih (nf + 1) (by omega) (by omega)
        exact ⟨is', result, low, by omega, hit, by omega⟩
    · rw [if_neg found] at step ⊢
      obtain ⟨is', result, low, high, hit, balance⟩ := ih nf wanted (by omega)
      exact ⟨is', result, low, by omega, hit, by omega⟩

/-- Where a cell at or above `nUsed` went, if it was moved. -/
def DefragState.dest (s : DefragState) (nKv nUsed i : Nat) : Option Nat :=
  if nUsed ≤ i ∧ i < nKv ∧ s.id nKv i ≠ nKv then some (s.id nKv i) else none

def KvCell.live (cell : KvCell) : Bool := !cell.isEmpty

theorem DefragState.movable_iff (s : DefragState) (nKv i : Nat) :
    s.movable nKv i = true ↔ (s.cell i).isEmpty = false ∧ s.id nKv i = nKv := by
  simp [DefragState.movable]

section Pass

variable (c : KvCache)

/-- The state of the pass when every cell below `frontier` holds something. -/
structure Defragged (s : DefragState) (frontier : Nat) : Prop where
  relocated : Relocated KvCell.live {} c.used.toNat c.cells s.cells
    (s.dest (kvCacheCellMax c) c.used.toNat)
  idsLength : s.ids.length = kvCacheCellMax c
  low : ∀ i, i < c.used.toNat → s.id (kvCacheCellMax c) i = kvCacheCellMax c ∨
    (s.id (kvCacheCellMax c) i = i ∧ (c.cell i).isEmpty = false)
  filled : ∀ i, i < frontier → (s.cell i).isEmpty = false
  targets : ∀ i d, s.dest (kvCacheCellMax c) c.used.toNat i = some d → d < frontier
  head : s.head = c.head ∨ s.head = c.used.toNat

variable {c}

theorem UsedExact.count (exact_ : UsedExact c) : c.cells.countP KvCell.live = c.used.toNat := by
  rw [exact_.used]
  rfl

theorem UsedExact.empty_above (exact_ : UsedExact c) (i : Nat) (above : kvCacheCellMax c ≤ i) :
    (c.cell i).isEmpty = true := by
  by_cases inside : i < c.size
  · by_contra nonempty
    rw [Bool.not_eq_true] at nonempty
    have member : c.cell i ∈ c.cells := by
      rw [KvCache.cell, getD_eq_getElem c.cells _ inside]
      exact getElem_mem inside
    have placed := exact_.placed _ member ((KvCell.isEmpty_false_iff _).mp nonempty)
    have inUse : c.inUse i = true := by
      simp [KvCache.inUse, KvCell.inUse, placed, nonempty]
    have := lt_kvCacheCellMax c i inside inUse
    omega
  · rw [KvCache.cell, getD_eq_default c.cells _ (not_lt.mp inside)]
    rfl

theorem UsedExact.used_le_cellMax (exact_ : UsedExact c) : c.used.toNat ≤ kvCacheCellMax c := by
  have total := exact_.count
  rw [countP_eq_count c.cells KvCell.live {}] at total
  have beyond := count_between_le (fun i => KvCell.live (c.cells.getD i {}) = true)
    (fun _ => False) (kvCacheCellMax c) c.cells.length (kvCacheCellMax_le c) (by
      intro i above _ alive
      have := exact_.empty_above i above
      simp only [KvCache.cell] at this
      rw [KvCell.live, this] at alive
      cases alive)
  have within := @Nat.count_le (fun i => KvCell.live (c.cells.getD i {}) = true) _
    (kvCacheCellMax c)
  simp only [Nat.count_false] at beyond
  omega

theorem kvCacheDefrag_start :
    Defragged c { cells := c.cells
                  ids := List.replicate (kvCacheCellMax c) (kvCacheCellMax c)
                  head := c.head
                  nMoves := 0 } 0 := by
  have unmoved : ∀ i, (List.replicate (kvCacheCellMax c) (kvCacheCellMax c)).getD i
      (kvCacheCellMax c) = kvCacheCellMax c := by
    intro i
    rw [getD_eq_getElem?_getD, List.getElem?_getD_replicate_default_eq]
  have nowhere : DefragState.dest ⟨c.cells, List.replicate (kvCacheCellMax c) (kvCacheCellMax c),
      c.head, 0⟩ (kvCacheCellMax c) c.used.toNat = fun _ => none := by
    funext i
    simp only [DefragState.dest, DefragState.id]
    simp
  refine ⟨?_, length_replicate, fun i _ => Or.inl (unmoved i), ?_, ?_, Or.inl rfl⟩
  · rw [nowhere]
    exact Relocated.refl _ _ _ _
  · intro i impossible
    omega
  · intro i d target
    rw [nowhere] at target
    cases target

variable {s : DefragState} {frontier : Nat}

/-- A live cell at or above `nUsed` was not moved yet. -/
theorem Defragged.movable_of_live {i : Nat} (state : Defragged c s frontier)
    (above : c.used.toNat ≤ i) (inside : i < kvCacheCellMax c) (live : (s.cell i).isEmpty = false) :
    s.movable (kvCacheCellMax c) i = true := by
  refine (s.movable_iff _ _).mpr ⟨live, ?_⟩
  by_contra moved
  have target : s.dest (kvCacheCellMax c) c.used.toNat i = some (s.id (kvCacheCellMax c) i) :=
    if_pos ⟨above, inside, moved⟩
  have cleared := (state.relocated.moved i _ target).2.2.2.2.2.2
  simp only [DefragState.cell, cleared] at live
  cases live

theorem dest_move (s : DefragState) (cont : Bool) (i d : Nat) (ids : i < s.ids.length)
    (above : c.used.toNat ≤ i) (inside : i < kvCacheCellMax c) (below : d < kvCacheCellMax c) :
    (s.move c.used.toNat cont i d).dest (kvCacheCellMax c) c.used.toNat =
      Function.update (s.dest (kvCacheCellMax c) c.used.toNat) i (some d) := by
  funext k
  by_cases here : k = i
  · subst k
    have new : (s.move c.used.toNat cont i d).id (kvCacheCellMax c) i = d :=
      getD_set_self _ _ _ _ ids
    rw [Function.update_self, DefragState.dest, new, if_pos ⟨above, inside, by omega⟩]
  · have old : (s.move c.used.toNat cont i d).id (kvCacheCellMax c) k =
        s.id (kvCacheCellMax c) k := getD_set_ne _ _ _ _ _ (Ne.symm here)
    rw [Function.update_of_ne here, DefragState.dest, DefragState.dest, old]

theorem Defragged.move {i : Nat} (state : Defragged c s frontier)
    (cont : Bool) (above : c.used.toNat ≤ i) (inside : i < kvCacheCellMax c)
    (movable : s.movable (kvCacheCellMax c) i = true) (below : frontier < c.used.toNat)
    (hole : (s.cell frontier).isEmpty = true) :
    Defragged c (s.move c.used.toNat cont i frontier) (frontier + 1) := by
  obtain ⟨alive, unmoved⟩ := (s.movable_iff _ _).mp movable
  have sizes := kvCacheCellMax_le c
  have length := state.relocated.length
  simp only [KvCache.size] at sizes
  have dest := dest_move s cont i frontier (by rw [state.idsLength]; exact inside) above inside
    (by omega)
  have elsewhere : ∀ k, k ≠ i → k ≠ frontier →
      (s.move c.used.toNat cont i frontier).cell k = s.cell k := by
    intro k notSource notHole
    simp only [DefragState.cell, DefragState.move]
    rw [getD_set_ne _ _ _ _ _ (Ne.symm notSource), getD_set_ne _ _ _ _ _ (Ne.symm notHole)]
  have atHole : (s.move c.used.toNat cont i frontier).cell frontier = s.cell i := by
    simp only [DefragState.cell, DefragState.move]
    rw [getD_set_ne _ _ _ _ _ (by omega : i ≠ frontier), getD_set_self _ _ _ _ (by omega)]
  refine ⟨?_, ?_, ?_, ?_, ?_, Or.inr rfl⟩
  · rw [dest]
    refine state.relocated.move rfl i frontier above (by omega) ?_ ?_ below ?_
    · simp [DefragState.dest, unmoved]
    · simp only [KvCell.live, Bool.not_eq_true']
      exact alive
    · simp only [KvCell.live, Bool.not_eq_false']
      exact hole
  · simp [DefragState.move, state.idsLength]
  · intro k small
    have old : (s.move c.used.toNat cont i frontier).id (kvCacheCellMax c) k =
        s.id (kvCacheCellMax c) k := getD_set_ne _ _ _ _ _ (by omega)
    rw [old]
    exact state.low k small
  · intro k small
    by_cases last : k = frontier
    · rw [last, atHole]
      exact alive
    · rw [elsewhere k (by omega) last]
      exact state.filled k (by omega)
  · intro k d target
    rw [dest] at target
    by_cases here : k = i
    · rw [here, Function.update_self, Option.some.injEq] at target
      omega
    · rw [Function.update_of_ne here] at target
      exact Nat.lt_succ_of_lt (state.targets k d target)

/-- A live cell below `nUsed` that the outer loop passes stays where it is. -/
theorem Defragged.mark (exact_ : UsedExact c) (state : Defragged c s frontier)
    (below : frontier < c.used.toNat) (alive : (s.cell frontier).isEmpty = false) :
    Defragged c { s with ids := s.ids.set frontier frontier } (frontier + 1) := by
  have bounded := exact_.used_le_cellMax
  have dest : DefragState.dest { s with ids := s.ids.set frontier frontier } (kvCacheCellMax c)
      c.used.toNat = s.dest (kvCacheCellMax c) c.used.toNat := by
    funext k
    by_cases here : k = frontier
    · simp only [DefragState.dest]
      rw [if_neg (by omega), if_neg (by omega)]
    · have old : DefragState.id { s with ids := s.ids.set frontier frontier } (kvCacheCellMax c) k =
          s.id (kvCacheCellMax c) k := getD_set_ne _ _ _ _ _ (Ne.symm here)
      rw [DefragState.dest, DefragState.dest, old]
  have origin : s.cell frontier = c.cell frontier := by
    apply state.relocated.kept frontier
    · rw [DefragState.dest, if_neg (by omega)]
    · intro j target
      have := state.targets j frontier target
      omega
  refine ⟨?_, ?_, ?_, ?_, ?_, state.head⟩
  · rw [dest]
    exact state.relocated
  · simp [state.idsLength]
  · intro k small
    by_cases here : k = frontier
    · right
      subst k
      exact ⟨getD_set_self _ _ _ _ (by rw [state.idsLength]; omega), origin ▸ alive⟩
    · have old : DefragState.id { s with ids := s.ids.set frontier frontier } (kvCacheCellMax c) k =
          s.id (kvCacheCellMax c) k := getD_set_ne _ _ _ _ _ (Ne.symm here)
      rw [old]
      exact state.low k small
  · intro k small
    by_cases last : k = frontier
    · rw [last]
      exact alive
    · exact state.filled k (by omega)
  · intro k d target
    rw [dest] at target
    exact Nat.lt_succ_of_lt (state.targets k d target)

theorem holeSize_spec (s : DefragState) (nUsed i0 nh : Nat) (fits : i0 + nh ≤ nUsed)
    (hole : ∀ i, i0 ≤ i → i < i0 + nh → (s.cell i).isEmpty = true) :
    i0 + holeSize s nUsed i0 nh ≤ nUsed ∧
      ∀ i, i0 ≤ i → i < i0 + holeSize s nUsed i0 nh → (s.cell i).isEmpty = true := by
  fun_induction holeSize s nUsed i0 nh with
  | case1 nh more ih =>
    refine ih (by omega) ?_
    intro i above below
    by_cases last : i = i0 + nh
    · rw [last]
      exact more.2
    · exact hole i above (by omega)
  | case2 nh _ => exact ⟨fits, hole⟩

theorem moveCells_spec (maxMoves i0 nh i1 nf : Nat) (cont : Bool)
    (s : DefragState) (state : Defragged c s (i0 + nf)) (wanted : nf < nh)
    (fits : i0 + nh ≤ c.used.toNat) (above : c.used.toNat ≤ i1) (inside : i1 ≤ kvCacheCellMax c)
    (hole : ∀ i, i0 + nf ≤ i → i < i0 + nh → (s.cell i).isEmpty = true)
    (balance : nh + Nat.count (fun i => s.movable (kvCacheCellMax c) i = true) i1 =
      nf + Nat.count (fun i => s.movable (kvCacheCellMax c) i = true) (kvCacheCellMax c)) :
    ∃ frontier, Defragged c (moveCells maxMoves (kvCacheCellMax c) c.used.toNat i0 nh i1 nf
        cont s).2 frontier ∧
      ((moveCells maxMoves (kvCacheCellMax c) c.used.toNat i0 nh i1 nf cont s).1 = false →
        frontier = i0 + nh) ∧
      ((moveCells maxMoves (kvCacheCellMax c) c.used.toNat i0 nh i1 nf cont s).1 = true →
        (moveCells maxMoves (kvCacheCellMax c) c.used.toNat i0 nh i1 nf cont s).2.nMoves =
          maxMoves) := by
  fun_induction moveCells maxMoves (kvCacheCellMax c) c.used.toNat i0 nh i1 nf cont s with
  | case1 i1 nf cont s below movable last =>
    refine ⟨i0 + nf + 1, ?_, fun _ => by omega, fun impossible => by cases impossible⟩
    exact state.move cont above below movable (by omega)
      (hole _ (le_refl _) (by omega))
  | case2 i1 nf cont s below movable more ih =>
    have moved := state.move cont above below movable (by omega)
      (hole _ (le_refl _) (by omega))
    have elsewhere : ∀ k, k ≠ i1 → k ≠ i0 + nf →
        (s.move c.used.toNat cont i1 (i0 + nf)).cell k = s.cell k := by
      intro k notSource notHole
      simp only [DefragState.cell, DefragState.move]
      rw [getD_set_ne _ _ _ _ _ (Ne.symm notSource), getD_set_ne _ _ _ _ _ (Ne.symm notHole)]
    refine ih moved (by omega) (by omega) (by omega) ?_ ?_
    · intro k from_ upto
      rw [elsewhere k (by omega) (by omega)]
      exact hole k (by omega) upto
    · have agree := count_between_congr
        (fun i => (s.move c.used.toNat cont i1 (i0 + nf)).movable (kvCacheCellMax c) i = true)
        (fun i => s.movable (kvCacheCellMax c) i = true) (i1 + 1) (kvCacheCellMax c) below
        (by
          intro k from_ _
          have sameId : (s.move c.used.toNat cont i1 (i0 + nf)).id (kvCacheCellMax c) k =
              s.id (kvCacheCellMax c) k := getD_set_ne _ _ _ _ _ (by omega)
          rw [DefragState.movable_iff, DefragState.movable_iff,
            elsewhere k (by omega) (by omega), sameId])
      have here := Nat.count_succ (fun i => s.movable (kvCacheCellMax c) i = true) i1
      rw [if_pos movable] at here
      omega
  | case3 i1 nf cont s below _ spent =>
    exact ⟨i0 + nf, state, fun impossible => (by cases impossible), fun _ => spent⟩
  | case4 i1 nf cont s below skipped _ ih =>
    have here := Nat.count_succ (fun i => s.movable (kvCacheCellMax c) i = true) i1
    rw [if_neg skipped] at here
    exact ih state wanted (by omega) (by omega) hole (by omega)
  | case5 i1 nf cont s past =>
    have same : i1 = kvCacheCellMax c := by omega
    rw [same] at balance
    omega

/-- There are enough live cells above `nUsed` to fill a hole below it. -/
theorem Defragged.enough {i0 : Nat} (exact_ : UsedExact c) (state : Defragged c s i0) (nh : Nat)
    (fits : i0 + nh ≤ c.used.toNat) (hole : ∀ i, i0 ≤ i → i < i0 + nh → (s.cell i).isEmpty = true) :
    nh + Nat.count (fun i => s.movable (kvCacheCellMax c) i = true) c.used.toNat ≤
      Nat.count (fun i => s.movable (kvCacheCellMax c) i = true) (kvCacheCellMax c) := by
  have bounded := exact_.used_le_cellMax
  have sizes := kvCacheCellMax_le c
  have length := state.relocated.length
  have total := state.relocated.count
  rw [exact_.count, countP_eq_count s.cells KvCell.live {}, length] at total
  have below := count_add_hole_le (fun i => KvCell.live (s.cells.getD i {}) = true) i0 nh
    c.used.toNat fits (by
      intro i above upper alive
      have := hole i above upper
      simp only [DefragState.cell] at this
      rw [KvCell.live, this] at alive
      cases alive)
  have beyond := count_between_le (fun i => KvCell.live (s.cells.getD i {}) = true)
    (fun _ => False) (kvCacheCellMax c) c.cells.length sizes (by
      intro i above _ alive
      have origin : s.cells.getD i {} = c.cells.getD i {} := by
        apply state.relocated.above_kept i (by omega)
        rw [DefragState.dest, if_neg (by omega)]
      have := exact_.empty_above i above
      simp only [KvCache.cell] at this
      rw [origin, KvCell.live, this] at alive
      cases alive)
  have between := count_between_le (fun i => KvCell.live (s.cells.getD i {}) = true)
    (fun i => s.movable (kvCacheCellMax c) i = true) c.used.toNat (kvCacheCellMax c) bounded (by
      intro i above inside alive
      exact state.movable_of_live above inside (by simpa [KvCell.live, DefragState.cell] using alive))
  simp only [Nat.count_false] at beyond
  omega

theorem Defragged.fillHole {i0 : Nat} (exact_ : UsedExact c) (maxMoves : Nat)
    (state : Defragged c s i0) (below : i0 < c.used.toNat) (empty : (s.cell i0).isEmpty = true) :
    i0 + holeSize s c.used.toNat i0 1 ≤ c.used.toNat ∧
      ∃ is, scanBack s (kvCacheCellMax c) i0 (holeSize s c.used.toNat i0 1)
          (kvCacheCellMax c - 1) 0 = (is, holeSize s c.used.toNat i0 1) ∧
        ∃ frontier, Defragged c (moveCells maxMoves (kvCacheCellMax c) c.used.toNat i0
            (holeSize s c.used.toNat i0 1) is 0 false s).2 frontier ∧
          ((moveCells maxMoves (kvCacheCellMax c) c.used.toNat i0
              (holeSize s c.used.toNat i0 1) is 0 false s).1 = false →
            frontier = i0 + holeSize s c.used.toNat i0 1) ∧
          ((moveCells maxMoves (kvCacheCellMax c) c.used.toNat i0
              (holeSize s c.used.toNat i0 1) is 0 false s).1 = true →
            (moveCells maxMoves (kvCacheCellMax c) c.used.toNat i0
              (holeSize s c.used.toNat i0 1) is 0 false s).2.nMoves = maxMoves) := by
  have bounded := exact_.used_le_cellMax
  have atLeast := le_holeSize s c.used.toNat i0 1
  obtain ⟨fits, hole⟩ := holeSize_spec s c.used.toNat i0 1 below (by
    intro i above upper
    have same : i = i0 := by omega
    rw [same]
    exact empty)
  generalize holeSize s c.used.toNat i0 1 = nh at atLeast fits hole
  have enough := state.enough exact_ nh fits hole
  have last : kvCacheCellMax c - 1 + 1 = kvCacheCellMax c := by omega
  have low := Nat.count_monotone (fun i => s.movable (kvCacheCellMax c) i = true)
    (show i0 + 1 ≤ c.used.toNat by omega)
  obtain ⟨is, found, _, high, hit, balance⟩ :=
    scanBack_spec s (kvCacheCellMax c) i0 nh (kvCacheCellMax c - 1) 0 (by omega)
      (by rw [last]; omega)
  rw [last] at balance
  have above : c.used.toNat ≤ is := by
    by_contra under
    have here := Nat.count_succ (fun i => s.movable (kvCacheCellMax c) i = true) is
    rw [if_pos hit] at here
    have monotone := Nat.count_monotone (fun i => s.movable (kvCacheCellMax c) i = true)
      (show is + 1 ≤ c.used.toNat by omega)
    omega
  exact ⟨fits, is, found,
    moveCells_spec maxMoves i0 nh is 0 false s state (by omega) fits above (by omega)
      hole balance⟩

/-- The outer loop never fails the assertion, and fills everything below `nUsed`
unless the moves are spent. -/
theorem defragLoop_spec (exact_ : UsedExact c) (maxMoves i0 : Nat) (s : DefragState)
    (state : Defragged c s i0) (bounded : i0 ≤ c.used.toNat) :
    ∃ s' frontier, defragLoop maxMoves (kvCacheCellMax c) c.used.toNat i0 s = some s' ∧
      Defragged c s' frontier ∧ (s'.nMoves ≠ maxMoves → frontier = c.used.toNat) := by
  fun_induction defragLoop maxMoves (kvCacheCellMax c) c.used.toNat i0 s with
  | case1 i0 s below empty nh is stop s' moved spent scanned =>
    obtain ⟨fits, is', found, frontier, state', _, stopped⟩ :=
      state.fillHole exact_ maxMoves below empty
    cases found.symm.trans scanned
    rw [moved] at state' stopped
    refine ⟨s', frontier, rfl, state', fun unspent => absurd ?_ unspent⟩
    rcases Bool.or_eq_true_iff.mp spent with stops | out
    · exact stopped stops
    · exact of_decide_eq_true out
  | case2 i0 s below empty nh is stop s' moved unspent scanned ih =>
    obtain ⟨fits, is', found, frontier, state', finished, _⟩ :=
      state.fillHole exact_ maxMoves below empty
    cases found.symm.trans scanned
    rw [moved] at state' finished
    have goesOn : stop = false := by
      rw [Bool.or_eq_true_iff, not_or, Bool.not_eq_true] at unspent
      exact unspent.1
    exact ih (finished goesOn ▸ state') fits
  | case3 i0 s below empty nh is nf scanned short =>
    obtain ⟨_, is', found, _⟩ := state.fillHole exact_ maxMoves below empty
    cases found.symm.trans scanned
    exact absurd rfl short
  | case4 i0 s below nonempty ih =>
    exact ih (state.mark exact_ below ((Bool.not_eq_true _).mp nonempty)) below
  | case5 i0 s past =>
    exact ⟨s, i0, rfl, state, fun _ => by omega⟩

section

variable (state : Defragged c s frontier)
include state

theorem Defragged.moves_iff (i d : Nat) :
    s.dest (kvCacheCellMax c) c.used.toNat i = some d ↔ Moves s.ids i ∧ s.ids.getD i 0 = d := by
  have length := state.idsLength
  have defaults : i < kvCacheCellMax c → s.id (kvCacheCellMax c) i = s.ids.getD i 0 := by
    intro inside
    rw [DefragState.id, getD_eq_getElem _ _ (by omega), getD_eq_getElem _ _ (by omega)]
  constructor
  · intro target
    have low := (state.relocated.moved i d target).2.2.1
    rw [DefragState.dest] at target
    split at target
    · rename_i goes
      obtain ⟨above, inside, moved⟩ := goes
      rw [defaults inside] at target
      rw [Option.some.injEq] at target
      exact ⟨⟨by omega, by omega, by omega⟩, target⟩
    · cases target
  · rintro ⟨⟨inside, notSame, moved⟩, target⟩
    rw [length] at inside moved
    have above : c.used.toNat ≤ i := by
      by_contra below
      rcases state.low i (by omega) with unvisited | ⟨visited, _⟩
      · exact moved (defaults inside ▸ unvisited)
      · exact notSame (defaults inside ▸ visited)
    rw [DefragState.dest, defaults inside, if_pos ⟨above, inside, moved⟩, target]

theorem Defragged.cell_newIndex (i : Nat)
    (alive : (c.cell i).isEmpty = false) : s.cell (newIndex s.ids i) = c.cell i := by
  rw [newIndex]
  by_cases moves : Moves s.ids i
  · have target := (state.moves_iff i (s.ids.getD i 0)).mpr ⟨moves, rfl⟩
    rw [if_pos moves]
    exact (state.relocated.moved i _ target).2.2.2.2.2.1
  · rw [if_neg moves]
    apply state.relocated.kept i
    · cases target : s.dest (kvCacheCellMax c) c.used.toNat i with
      | none => rfl
      | some d => exact absurd ((state.moves_iff i d).mp target).1 moves
    · intro j target
      have hole := (state.relocated.moved j i target).2.2.2.2.1
      simp only [KvCell.live, Bool.not_eq_false'] at hole
      simp only [KvCache.cell] at alive
      rw [hole] at alive
      cases alive

theorem Defragged.origin (k : Nat)
    (alive : (s.cell k).isEmpty = false) :
    ∃ i, (c.cell i).isEmpty = false ∧ newIndex s.ids i = k := by
  by_cases targeted : ∃ j, s.dest (kvCacheCellMax c) c.used.toNat j = some k
  · obtain ⟨j, target⟩ := targeted
    obtain ⟨moves, goes⟩ := (state.moves_iff j k).mp target
    have live := (state.relocated.moved j k target).2.2.2.1
    refine ⟨j, by simpa [KvCell.live, KvCache.cell] using live, ?_⟩
    rw [newIndex, if_pos moves, goes]
  · have untargeted : ∀ j, s.dest (kvCacheCellMax c) c.used.toNat j ≠ some k :=
      fun j target => targeted ⟨j, target⟩
    cases moved : s.dest (kvCacheCellMax c) c.used.toNat k with
    | some d =>
      have cleared := (state.relocated.moved k d moved).2.2.2.2.2.2
      simp only [DefragState.cell, cleared] at alive
      cases alive
    | none =>
      have kept := state.relocated.kept k moved untargeted
      have still : ¬ Moves s.ids k := by
        intro moves
        rw [(state.moves_iff k _).mpr ⟨moves, rfl⟩] at moved
        cases moved
      refine ⟨k, ?_, ?_⟩
      · simp only [DefragState.cell, kept] at alive
        exact alive
      · rw [newIndex, if_neg still]

theorem Defragged.cell_cases (k : Nat) :
    s.cell k = {} ∨ ∃ i, s.cell k = c.cell i := by
  by_cases targeted : ∃ j, s.dest (kvCacheCellMax c) c.used.toNat j = some k
  · obtain ⟨j, target⟩ := targeted
    exact Or.inr ⟨j, (state.relocated.moved j k target).2.2.2.2.2.1⟩
  · cases moved : s.dest (kvCacheCellMax c) c.used.toNat k with
    | some d => exact Or.inl (state.relocated.moved k d moved).2.2.2.2.2.2
    | none => exact Or.inr ⟨k, state.relocated.kept k moved fun j target => targeted ⟨j, target⟩⟩

end

theorem Defragged.remap (exact_ : UsedExact c) (state : Defragged c s frontier) (i : Nat)
    (alive : (c.cell i).isEmpty = false) :
    remapCellIdAfterDefrag s.cells s.ids i = newIndex s.ids i := by
  have bounded := exact_.used_le_cellMax
  have length := state.idsLength
  have inside : i < s.ids.length := by
    by_contra outside
    rw [exact_.empty_above i (by omega)] at alive
    cases alive
  have content := state.cell_newIndex i alive
  rw [remapCellIdAfterDefrag, if_neg (by omega)]
  by_cases moves : Moves s.ids i
  · have target := (state.moves_iff i (s.ids.getD i 0)).mpr ⟨moves, rfl⟩
    have low := (state.relocated.moved i _ target).2.2.1
    rw [if_pos (by omega), newIndex, if_pos moves]
  · rw [newIndex, if_neg moves] at content ⊢
    by_cases sentinel : s.ids.getD i 0 = s.ids.length
    · have cellInside : i < s.cells.length := by
        have sizes := kvCacheCellMax_le c
        rw [state.relocated.length]
        simp only [KvCache.size] at sizes
        omega
      have stays : (s.cells.getD i {}).isEmpty = false := by
        simp only [DefragState.cell] at content
        rw [content]
        exact alive
      rw [if_neg (by omega), if_pos ⟨cellInside, stays⟩]
    · have same : s.ids.getD i 0 = i := by
        by_contra other
        exact moves ⟨inside, other, sentinel⟩
      rw [same, if_pos inside]

theorem kvCacheDefragInternal_state (exact_ : UsedExact c) (maxMoves : Nat) :
    ∃ s frontier, kvCacheDefragInternal c maxMoves = some s ∧ Defragged c s frontier ∧
      (s.nMoves ≠ maxMoves → frontier = c.used.toNat) :=
  defragLoop_spec exact_ maxMoves 0 _ kvCacheDefrag_start (Nat.zero_le _)

end Pass

def sparseCache : KvCache where
  used := 2
  cells := [{}, { pos := 0, token := 5, seqId := {0} }, {}, { pos := 1, token := 6, seqId := {0} }]

end LlamaCpp.Kv
