import Mathlib.Data.List.Flatten
import Mathlib.Data.List.TakeWhile
import LlamaCpp.Sched.InputMoves

/-!
# The addresses after the pass

What the pass should do is to relocate: each copy gets its address and nothing
else changes.  It does so exactly if no source visited before a copy shares the
copy's address, and the places it gives are safe as long as the buffer does not
wrap over a copy that a later split still reads.
-/

set_option autoImplicit false

namespace LlamaCpp.Sched

open LlamaCpp.Lib List

section OneMove

variable {copy : TensorRef} {address : Nat}

variable {data : Addresses}

theorem foldl_moveSource_settled (sources : List TensorRef) (settled : data copy = some address) :
    sources.foldl (moveSource copy address) data = data := by
  induction sources with
  | nil => rfl
  | cons src rest ih =>
    have kept : moveSource copy address data src = data := by
      unfold moveSource
      split
      · rename_i same
        funext other
        unfold setAddress
        split
        · rename_i here
          rw [here, same, settled]
        · rfl
      · rfl
    rw [foldl_cons, kept, ih]

theorem setAddress_setAddress (data : Addresses) (ref : TensorRef) (address : Nat) :
    setAddress (setAddress data ref address) ref address = setAddress data ref address := by
  funext other
  unfold setAddress
  split <;> rfl

theorem moveInput_eq {sources : List TensorRef}
    (alone : ∀ r ∈ sources.takeWhile (· ≠ copy), data r ≠ data copy) :
    moveInput sources copy address data = setAddress data copy address := by
  unfold moveInput
  induction sources with
  | nil => rfl
  | cons src rest ih =>
    rw [foldl_cons]
    by_cases here : src = copy
    · subst here
      have settled : setAddress data src address src = some address := if_pos rfl
      rw [moveSource, if_pos rfl, foldl_moveSource_settled rest settled, setAddress_setAddress]
    · rw [takeWhile_cons_of_pos (by simpa using here)] at alone
      rw [moveSource, if_neg (alone src mem_cons_self)]
      exact ih fun r member => alone r (mem_cons_of_mem _ member)

theorem foldl_moveSource_moved (sources : List TensorRef) {r : TensorRef}
    (moved : data r = some address) :
    sources.foldl (moveSource copy address) data r = some address := by
  induction sources generalizing data with
  | nil => exact moved
  | cons src rest ih =>
    refine ih ?_
    unfold moveSource
    split
    · simp only [setAddress]
      split
      · rfl
      · exact moved
    · exact moved

theorem moveInput_moved {sources : List TensorRef} {r : TensorRef}
    (before : r ∈ sources.takeWhile (· ≠ copy)) (same : data r = data copy) :
    moveInput sources copy address data r = some address := by
  have other : r ≠ copy := by simpa using mem_takeWhile_imp before
  unfold moveInput
  rw [setAddress, if_neg other]
  induction sources generalizing data with
  | nil => cases before
  | cons src rest ih =>
    have notCopy : src ≠ copy := by
      intro here
      rw [takeWhile_cons_of_neg (by simpa using here)] at before
      cases before
    rw [takeWhile_cons_of_pos (by simpa using notCopy)] at before
    by_cases here : r = src
    · subst here
      exact foldl_moveSource_moved rest (by rw [moveSource, if_pos same, setAddress, if_pos rfl])
    · refine ih ((mem_cons.mp before).resolve_left here) ?_
      unfold moveSource
      split
      · rw [setAddress, setAddress, if_neg here, if_neg fun same => notCopy same.symm]
        exact same
      · exact same

end OneMove

variable {sched : BackendSched} {graph : CGraph} {place : Placement} {st : SplitState} {mem : Memory}

def relocate (sched : BackendSched) (data : Addresses) (moves : List Move) : Addresses :=
  moves.foldl (fun data m => setAddress data (m.copy sched) m.address) data

variable {data : Addresses} {moves : List Move} {m : Move} {oldBackend : BackendId}
  {backendIds : TensorId → BackendId} {size i : Nat} {other : Move} {size' k : Nat}

theorem relocate_other {r : TensorRef} (other : ∀ m ∈ moves, r ≠ m.copy sched) :
    relocate sched data moves r = data r := by
  unfold relocate
  induction moves generalizing data with
  | nil => rfl
  | cons m rest ih =>
    rw [foldl_cons, ih fun later member => other later (mem_cons_of_mem _ member)]
    exact if_neg (other m mem_cons_self)

theorem relocate_copy (once : (moves.map (·.copy sched)).Nodup) (member : m ∈ moves) :
    relocate sched data moves (m.copy sched) = some m.address := by
  induction moves generalizing data with
  | nil => cases member
  | cons first rest ih =>
    rw [map_cons, nodup_cons] at once
    rcases mem_cons.mp member with rfl | later
    · have later : ∀ other ∈ rest, m.copy sched ≠ other.copy sched := fun other otherMember same =>
        once.1 (same ▸ mem_map_of_mem otherMember)
      exact (relocate_other later).trans (if_pos rfl)
    · exact ih once.2 later

theorem inputMoves_map_input (split : Split) (base : Nat) (spot : Spot) (inputs : List TensorId)
    (offset : Nat) :
    (inputMoves graph split base spot inputs offset).map (·.copy sched) =
      inputs.map fun t => .copy t split.backendId sched.curCopy := by
  induction inputs generalizing offset with
  | nil => rfl
  | cons t rest ih =>
    rw [inputMoves, map_cons, ih]
    rfl

def listedCopies (sched : BackendSched) (splits : List Split) : List TensorRef :=
  splits.flatMap fun split => split.inputs.map fun t => .copy t split.backendId sched.curCopy

theorem listedCopies_nodup {splits : List Split} (once : (listedInputs splits).Nodup) :
    (listedCopies sched splits).Nodup := by
  have mapped : listedCopies sched splits =
      (listedInputs splits).map fun pair => TensorRef.copy pair.1 pair.2 sched.curCopy := by
    rw [listedInputs, map_flatMap]
    simp only [map_map]
    rfl
  rw [mapped]
  refine once.map fun one other same => ?_
  simpa [Prod.ext_iff] using same

theorem backendMoves_sublist (backend : BackendId) :
    ((backendMoves graph place st mem backend).map (·.copy sched)).Sublist
      (listedCopies sched (backendSplits st backend)) := by
  unfold backendMoves
  cases mem.isCpu backend with
  | true => exact nil_sublist _
  | false =>
    cases maxInputSize graph place mem.maxExtraAlloc (backendSplits st backend) with
    | none => exact nil_sublist _
    | some size =>
      simp only [Bool.false_eq_true, if_false]
      split
      · exact nil_sublist _
      · have firsts : (packedSplits graph place size 0 0 (backendSplits st backend)).map Prod.fst =
            backendSplits st backend :=
          map_fst_zip (by rw [length_pack, length_map])
        conv => rhs; rw [← firsts]
        unfold packedMoves listedCopies
        rw [map_flatMap, flatMap_map]
        refine List.Sublist.flatMap_right _ fun entry _ => ?_
        rw [inputMoves_map_input]
        exact filter_sublist.map _

theorem allMoves_once (made : splitGraph sched graph backendIds oldBackend = .ok st) :
    ((allMoves graph place st mem).map (·.copy sched)).Nodup := by
  have nodup : (listedCopies sched st.splits).Nodup := listedCopies_nodup (splitGraph_once made)
  have every : ((List.range mem.nBackends).flatMap fun backend =>
      listedCopies sched (backendSplits st backend)).Nodup := by
    refine nodup_flatMap.mpr ⟨fun backend _ => ?_, ?_⟩
    · exact nodup.sublist (filter_sublist.flatMap _)
    · refine nodup_range.imp fun distinct => ?_
      intro ref here there
      obtain ⟨split, splitMember, copied⟩ := mem_flatMap.mp here
      obtain ⟨other, otherMember, otherCopied⟩ := mem_flatMap.mp there
      obtain ⟨t, -, rfl⟩ := mem_map.mp copied
      obtain ⟨t', -, same⟩ := mem_map.mp otherCopied
      have splitBackend := (mem_filter.mp splitMember).2
      have otherBackend := (mem_filter.mp otherMember).2
      simp only [decide_eq_true_eq] at splitBackend otherBackend
      obtain ⟨-, sameBackend, -⟩ := TensorRef.copy.inj same
      exact distinct (by rw [← splitBackend, ← otherBackend, sameBackend])
  unfold allMoves
  rw [map_flatMap]
  exact every.sublist (List.Sublist.flatMap_right _ fun backend _ => backendMoves_sublist backend)

/-- No source that a split's nodes read before a copy has the copy's address when it is moved. -/
def NoneShared (sched : BackendSched) (graph : CGraph) (st : SplitState) (data : Addresses)
    (moves : List Move) : Prop :=
  ∀ done m rest, moves = done ++ m :: rest →
    ∀ r ∈ (visitedSources graph st m.split).takeWhile (· ≠ m.copy sched),
      relocate sched data done r ≠ data (m.copy sched)

def MovesAlone (sched : BackendSched) (graph : CGraph) (st : SplitState) (data : Addresses)
    (moves : List Move) : Prop :=
  ∀ done m rest, moves = done ++ m :: rest → ∀ r, r ≠ m.copy sched →
    applyMove sched graph st (done.foldl (applyMove sched graph st) data) m r =
      done.foldl (applyMove sched graph st) data r

theorem relocate_concat (data : Addresses) (done : List Move) (m : Move) :
    relocate sched data (done ++ [m]) =
      setAddress (relocate sched data done) (m.copy sched) m.address := by
  unfold relocate
  rw [foldl_append]
  rfl

theorem relocate_before {done rest : List Move}
    (once : ((done ++ m :: rest).map (·.copy sched)).Nodup) :
    relocate sched data done (m.copy sched) = data (m.copy sched) := by
  refine relocate_other fun other member same => ?_
  rw [map_append, nodup_append] at once
  exact once.2.2 _ (mem_map_of_mem member) _ (by simp) same.symm

theorem foldl_applyMove_of_noneShared (once : (moves.map (·.copy sched)).Nodup)
    (unshared : NoneShared sched graph st data moves) : ∀ done rest, moves = done ++ rest →
      done.foldl (applyMove sched graph st) data = relocate sched data done := by
  intro done
  induction done using List.reverseRecOn with
  | nil => exact fun _ _ => rfl
  | append_singleton done m ih =>
    intro rest parts
    rw [append_assoc] at parts
    rw [foldl_append, ih _ parts, relocate_concat]
    refine moveInput_eq fun r before => ?_
    rw [relocate_before (parts ▸ once)]
    exact unshared done m rest parts r before

theorem foldl_applyMove_of_movesAlone (alone : MovesAlone sched graph st data moves) :
    ∀ done rest, moves = done ++ rest →
      done.foldl (applyMove sched graph st) data = relocate sched data done := by
  intro done
  induction done using List.reverseRecOn with
  | nil => exact fun _ _ => rfl
  | append_singleton done m ih =>
    intro rest parts
    rw [append_assoc] at parts
    have before := ih _ parts
    rw [foldl_append, relocate_concat, ← before]
    funext r
    by_cases here : r = m.copy sched
    · subst here
      exact (if_pos rfl).trans (if_pos rfl).symm
    · exact (alone done m rest parts r here).trans (if_neg here).symm

theorem movesAlone_iff (once : (moves.map (·.copy sched)).Nodup)
    (fresh : ∀ r, ∀ m ∈ moves, data r ≠ some m.address) :
    MovesAlone sched graph st data moves ↔ NoneShared sched graph st data moves := by
  constructor
  · intro alone done m rest parts r before same
    have member : m ∈ moves := by simp [parts]
    have exact_ := foldl_applyMove_of_movesAlone alone done _ parts
    have other : r ≠ m.copy sched := by simpa using mem_takeWhile_imp before
    have kept := alone done m rest parts r other
    rw [exact_] at kept
    have moved : applyMove sched graph st (relocate sched data done) m r = some m.address :=
      moveInput_moved before (by rw [relocate_before (parts ▸ once)]; exact same)
    rw [moved, same] at kept
    exact fresh _ m member kept.symm
  · intro unshared done m rest parts r other
    have exact_ := foldl_applyMove_of_noneShared once unshared
    have after := exact_ (done ++ [m]) rest (by rw [parts]; simp)
    rw [foldl_append, relocate_concat] at after
    rw [exact_ done _ parts] at after ⊢
    exact (congrFun after r).trans (if_neg other)

def Move.Holds (graph : CGraph) (m : Move) (x : Nat) : Prop :=
  m.address ≤ x ∧ x < m.address + m.size graph

/-- A node of the split of `other` or of a later one reads the copy that an earlier split of the
same backend lists. -/
def ReadAfter (sched : BackendSched) (graph : CGraph) (st : SplitState) (m other : Move) : Prop :=
  m.split.backendId = other.split.backendId ∧ m.split.iStart < other.split.iStart ∧
    ∃ i node j, graph.nodes[i]? = some node ∧ st.srcs node j = some (m.copy sched) ∧
      other.split.iStart ≤ i

/-- Where the buffer wraps between them, the blocks from its front up to the later split end
before the copy. -/
def ClearOf (m other : Move) : Prop :=
  other.spot.window = m.spot.window ∨ other.base + other.spot.start + other.spot.size ≤ m.address

theorem Placed.bounds (placed : Placed graph place st mem m size i) :
    m.base = (bufferOf mem m.split.backendId size).base ∧ m.base + m.spot.start ≤ m.address ∧
      m.address + m.size graph ≤ m.base + m.spot.start + m.spot.size ∧
      m.spot.start + m.spot.size ≤ size ∧ m.split.inputs ≠ [] := by
  obtain ⟨-, sameBase, -, input, low, high⟩ := inputMoves_mem placed.moves
  have spotSize := pack_size placed.spotAt
  rw [List.getElem?_map, placed.splitAt, Option.map_some, Option.some.injEq] at spotSize
  have inside := pack_inside (fun block member => by
    obtain ⟨split, splitMember, rfl⟩ := mem_map.mp member
    exact splitSize_le placed.measured splitMember) (mem_of_getElem? placed.spotAt)
  refine ⟨sameBase, by rw [sameBase]; exact low, ?_, inside, ?_⟩
  · rw [sameBase, ← spotSize]
    exact high
  · exact ne_nil_of_mem (mem_filter.mp input).1

section

variable (made : splitGraph sched graph backendIds oldBackend = .ok st)
include made

theorem backendSplits_pairwise
    (backend : BackendId) :
    (backendSplits st backend).Pairwise fun one other => one.iEnd ≤ other.iStart :=
  (splitGraph_consecutive made).pairwise.1.sublist filter_sublist

theorem Placed.lt_of_index
    (placed : Placed graph place st mem m size i)
    (otherPlaced : Placed graph place st mem other size' k)
    (sameBackend : m.split.backendId = other.split.backendId) (before : i < k) :
    m.split.iStart < other.split.iStart := by
  have splitAt := placed.splitAt
  rw [sameBackend] at splitAt
  obtain ⟨inside, value⟩ := List.getElem?_eq_some_iff.mp splitAt
  obtain ⟨otherInside, otherValue⟩ := List.getElem?_eq_some_iff.mp otherPlaced.splitAt
  have ordered := pairwise_iff_getElem.mp (backendSplits_pairwise made _) i k inside otherInside before
  rw [value, otherValue] at ordered
  have member : m.split ∈ st.splits := (mem_filter.mp (mem_of_getElem? splitAt)).1
  exact lt_of_lt_of_le (splitGraph_nonempty made member placed.bounds.2.2.2.2) ordered

theorem Placed.index_lt
    (placed : Placed graph place st mem m size i)
    (otherPlaced : Placed graph place st mem other size' k)
    (sameBackend : m.split.backendId = other.split.backendId)
    (before : m.split.iStart < other.split.iStart) : i < k := by
  rcases lt_trichotomy i k with less | same | more
  · exact less
  · subst same
    have splitAt := placed.splitAt
    rw [sameBackend, otherPlaced.splitAt, Option.some.injEq] at splitAt
    rw [splitAt] at before
    exact absurd before (lt_irrefl _)
  · have after := otherPlaced.lt_of_index made placed sameBackend.symm more
    omega

end

theorem Placed.sameSize (placed : Placed graph place st mem m size i)
    (otherPlaced : Placed graph place st mem other size' k)
    (sameBackend : m.split.backendId = other.split.backendId) :
    size = size' ∧ m.base = other.base := by
  have measured := placed.measured
  rw [sameBackend, otherPlaced.measured, Option.some.injEq] at measured
  subst measured
  rw [placed.bounds.1, otherPlaced.bounds.1, sameBackend]
  exact ⟨rfl, rfl⟩

theorem disjoint_of_clearOf (made : splitGraph sched graph backendIds oldBackend = .ok st)
    (member : m ∈ allMoves graph place st mem) (otherMember : other ∈ allMoves graph place st mem)
    (read : ReadAfter sched graph st m other) (clear : ClearOf m other) (x : Nat) :
    ¬ (m.Holds graph x ∧ other.Holds graph x) := by
  obtain ⟨size, i, placed⟩ := mem_allMoves.mp member
  obtain ⟨size', k, otherPlaced⟩ := mem_allMoves.mp otherMember
  obtain ⟨sameBackend, before, -⟩ := read
  obtain ⟨rfl, sameBase⟩ := placed.sameSize otherPlaced sameBackend
  obtain ⟨-, -, high, -, -⟩ := placed.bounds
  obtain ⟨-, otherLow, otherHigh, -, -⟩ := otherPlaced.bounds
  rintro ⟨⟨mLow, mHigh⟩, oLow, oHigh⟩
  obtain sameWindow | endsBefore := clear
  · have index := placed.index_lt made otherPlaced sameBackend before
    have spotAt := placed.spotAt
    rw [sameBackend] at spotAt
    obtain ⟨inside, value⟩ := List.getElem?_eq_some_iff.mp spotAt
    obtain ⟨otherInside, otherValue⟩ := List.getElem?_eq_some_iff.mp otherPlaced.spotAt
    have ordered := pairwise_iff_getElem.mp (pack_pairwise _ _ _) i k inside otherInside index
    rw [value, otherValue] at ordered
    omega
  · omega

theorem Placed.filled {l : Nat} {split : Split} {spot : Spot}
    (placed : Placed graph place st mem m size i)
    (splitAt : (backendSplits st m.split.backendId)[l]? = some split)
    (spotAt : (pack size 0 0 ((backendSplits st m.split.backendId).map (splitSize graph place)))[l]? = some spot)
    {x : Nat} (low : m.base + spot.start ≤ x) (high : x < m.base + spot.start + spot.size) :
    ∃ z, Placed graph place st mem z size l ∧ z.split = split ∧ z.Holds graph x := by
  have sameBackend : split.backendId = m.split.backendId := by
    have filtered := (mem_filter.mp (mem_of_getElem? splitAt)).2
    simpa using filtered
  have spotSize := pack_size spotAt
  rw [List.getElem?_map, splitAt, Option.map_some, Option.some.injEq] at spotSize
  rw [← spotSize] at high
  obtain ⟨z, member, holds⟩ :=
    @inputMoves_filled graph split m.base spot (movedInputs place split) 0 x low high
  obtain ⟨sameSplit, sameBase, sameSpot, -, -, -⟩ := inputMoves_mem member
  have zBackend : z.split.backendId = m.split.backendId := by rw [sameSplit, sameBackend]
  refine ⟨z, ?_, sameSplit, holds⟩
  constructor
  · rw [zBackend]
    exact placed.backend
  · rw [zBackend]
    exact placed.noCpu
  · exact placed.used
  · rw [zBackend]
    exact placed.measured
  · rw [zBackend, sameSplit]
    exact splitAt
  · rw [zBackend, sameSpot]
    exact spotAt
  · rw [sameSplit, sameSpot, ← sameSplit, zBackend, ← placed.bounds.1, sameSplit]
    exact member

theorem clearOf_of_disjoint (made : splitGraph sched graph backendIds oldBackend = .ok st)
    (member : m ∈ allMoves graph place st mem) (otherMember : other ∈ allMoves graph place st mem)
    (read : ReadAfter sched graph st m other) (some_ : 0 < m.size graph)
    (disjoint : ∀ z ∈ allMoves graph place st mem, ReadAfter sched graph st m z → ∀ x, ¬ (m.Holds graph x ∧ z.Holds graph x)) :
    ClearOf m other := by
  obtain ⟨size, i, placed⟩ := mem_allMoves.mp member
  obtain ⟨size', k, otherPlaced⟩ := mem_allMoves.mp otherMember
  obtain ⟨sameBackend, before, n, node, j, here, reads, later⟩ := read
  obtain ⟨rfl, sameBase⟩ := placed.sameSize otherPlaced sameBackend
  obtain ⟨-, low, -, -, -⟩ := placed.bounds
  have own : m.Holds graph m.address := ⟨le_refl _, by omega⟩
  by_contra notClear
  rw [ClearOf, not_or, not_le] at notClear
  obtain ⟨otherWindow, reaches⟩ := notClear
  by_cases inside : other.base + other.spot.start ≤ m.address
  · obtain ⟨z, zPlaced, sameSplit, holds⟩ :=
      otherPlaced.filled otherPlaced.splitAt otherPlaced.spotAt inside reaches
    refine disjoint z (mem_allMoves.mpr ⟨size, k, zPlaced⟩) ⟨?_, ?_, n, node, j, here, reads, ?_⟩ _
      ⟨own, holds⟩
    · rw [sameSplit, sameBackend]
    · rw [sameSplit]
      exact before
    · rw [sameSplit]
      exact later
  · -- an earlier block of the later split's window lies there
    obtain ⟨bound, value⟩ := List.getElem?_eq_some_iff.mp otherPlaced.spotAt
    have index := placed.index_lt made otherPlaced sameBackend before
    have spotAt := placed.spotAt
    rw [sameBackend] at spotAt
    obtain ⟨mBound, mValue⟩ := List.getElem?_eq_some_iff.mp spotAt
    have ordered := pairwise_iff_getElem.mp
      (@pack_pairwise size 0 0 ((backendSplits st other.split.backendId).map (splitSize graph place)))
    have windows := (ordered i k mBound bound index).1
    rw [mValue, value] at windows
    have parts := (take_append_drop k (pack size 0 0
      ((backendSplits st other.split.backendId).map (splitSize graph place)))).symm
    rw [drop_eq_getElem_cons bound, value] at parts
    obtain ⟨spot, taken, sameWindow, spotLow, spotHigh⟩ := pack_filled parts
      (x := m.address - other.base) (by omega) fun _ => Nat.zero_le _
    obtain ⟨l, earlier, spotValue⟩ := mem_iff_getElem.mp taken
    rw [length_take] at earlier
    have lBound := Nat.lt_of_lt_of_le earlier (Nat.min_le_right ..)
    rw [getElem_take] at spotValue
    have lSpotAt := List.getElem?_eq_some_iff.mpr ⟨lBound, spotValue⟩
    have afterM : i < l := by
      by_contra notAfter
      rcases Nat.eq_or_lt_of_le (Nat.le_of_not_lt notAfter) with rfl | less
      · rw [mValue] at spotValue
        exact otherWindow (by rw [← sameWindow, spotValue])
      · have older := (ordered l i lBound mBound less).1
        rw [spotValue, mValue, sameWindow] at older
        exact otherWindow (Nat.le_antisymm older windows)
    have splitBound : l < (backendSplits st other.split.backendId).length := by
      simpa [length_pack] using lBound
    obtain ⟨z, zPlaced, sameSplit, holds⟩ := otherPlaced.filled (List.getElem?_eq_getElem splitBound)
      lSpotAt (x := m.address) (by omega) (by omega)
    have zBackend : z.split.backendId = other.split.backendId := by
      have filtered := (mem_filter.mp (getElem_mem splitBound)).2
      rw [sameSplit]
      simpa using filtered
    have zBefore := zPlaced.lt_of_index made otherPlaced zBackend (by omega)
    refine disjoint z (mem_allMoves.mpr ⟨size, l, zPlaced⟩) ⟨?_, ?_, n, node, j, here, reads, ?_⟩ _
      ⟨own, holds⟩
    · rw [zBackend, sameBackend]
    · exact placed.lt_of_index made zPlaced (by rw [zBackend, sameBackend]) afterM
    · omega

def inputBuffer (graph : CGraph) (place : Placement) (st : SplitState) (mem : Memory)
    (backend : BackendId) : Option MemoryBuffer :=
  (maxInputSize graph place mem.maxExtraAlloc (backendSplits st backend)).map (bufferOf mem backend)

/-- The pass gives every copy that it has a buffer for a place of its own and changes nothing
else, on the way or in the end. -/
structure PreparedRight (sched : BackendSched) (graph : CGraph) (place : Placement) (st : SplitState)
    (mem : Memory) (data final : Addresses) : Prop where
  alone : MovesAlone sched graph st data (allMoves graph place st mem)
  frame : ∀ r, (∀ m ∈ allMoves graph place st mem, r ≠ m.copy sched) → final r = data r
  placed : ∀ m ∈ allMoves graph place st mem, final (m.copy sched) = some m.address
  inside : ∀ m ∈ allMoves graph place st mem,
    ∃ buffer, inputBuffer graph place st mem m.split.backendId = some buffer ∧
      buffer.base ≤ m.address ∧ m.address + m.size graph ≤ buffer.base + buffer.size
  disjoint : ∀ m ∈ allMoves graph place st mem, ∀ other ∈ allMoves graph place st mem,
    m.split = other.split → m.input ≠ other.input → ∀ x, ¬ (m.Holds graph x ∧ other.Holds graph x)
  unreused : ∀ m ∈ allMoves graph place st mem, ∀ other ∈ allMoves graph place st mem,
    ReadAfter sched graph st m other → ∀ x, ¬ (m.Holds graph x ∧ other.Holds graph x)

theorem le_bufferOf (mem : Memory) (backend size : Nat) : size ≤ (bufferOf mem backend size).size := by
  unfold bufferOf
  split
  · split
    · exact Nat.le_refl _
    · rename_i large
      exact Nat.le_of_not_lt large
  · exact Nat.le_refl _

theorem moves_inside (member : m ∈ allMoves graph place st mem) :
    ∃ buffer, inputBuffer graph place st mem m.split.backendId = some buffer ∧
      buffer.base ≤ m.address ∧ m.address + m.size graph ≤ buffer.base + buffer.size := by
  obtain ⟨size, i, placed⟩ := mem_allMoves.mp member
  obtain ⟨sameBase, low, high, inside, -⟩ := placed.bounds
  have enough := le_bufferOf mem m.split.backendId size
  refine ⟨bufferOf mem m.split.backendId size, ?_, by omega, by omega⟩
  rw [inputBuffer, placed.measured, Option.map_some]

theorem moves_disjoint (made : splitGraph sched graph backendIds oldBackend = .ok st)
    (member : m ∈ allMoves graph place st mem) (otherMember : other ∈ allMoves graph place st mem)
    (sameSplit : m.split = other.split) (distinct : m.input ≠ other.input) (x : Nat) :
    ¬ (m.Holds graph x ∧ other.Holds graph x) := by
  obtain ⟨size, i, placed⟩ := mem_allMoves.mp member
  obtain ⟨size', k, otherPlaced⟩ := mem_allMoves.mp otherMember
  have sameBackend : m.split.backendId = other.split.backendId := by rw [sameSplit]
  obtain ⟨rfl, sameBase⟩ := placed.sameSize otherPlaced sameBackend
  have sameIndex : i = k := by
    rcases lt_trichotomy i k with less | same | more
    · have apart := placed.lt_of_index made otherPlaced sameBackend less
      rw [sameSplit] at apart
      omega
    · exact same
    · have apart := otherPlaced.lt_of_index made placed sameBackend.symm more
      rw [sameSplit] at apart
      omega
  subst sameIndex
  have sameSpot : m.spot = other.spot := by
    have spotAt := placed.spotAt
    rw [sameBackend, otherPlaced.spotAt, Option.some.injEq] at spotAt
    exact spotAt.symm
  have here := placed.moves
  rw [sameSplit, sameSpot] at here
  have apart := inputMoves_apart here otherPlaced.moves fun same => distinct (by rw [same])
  rintro ⟨⟨low, high⟩, otherLow, otherHigh⟩
  omega

/-- The pass does what it should exactly if no source read before a copy shares its address and the
buffer wraps over no copy that is read later. -/
theorem prepareGraph_right_iff {oldBackend : BackendId} {backendIds : TensorId → BackendId}
    {data : Addresses} (made : splitGraph sched graph backendIds oldBackend = .ok st)
    (fresh : ∀ r, ∀ m ∈ allMoves graph place st mem, data r ≠ some m.address) :
    PreparedRight sched graph place st mem data (prepareGraph sched graph place st mem data) ↔
      NoneShared sched graph st data (allMoves graph place st mem) ∧
        ∀ m ∈ allMoves graph place st mem, ∀ other ∈ allMoves graph place st mem,
          ReadAfter sched graph st m other → 0 < m.size graph → ClearOf m other := by
  have once : ((allMoves graph place st mem).map (·.copy sched)).Nodup := allMoves_once made
  constructor
  · intro right
    refine ⟨(movesAlone_iff once fresh).mp right.alone, ?_⟩
    intro m member other otherMember read some_
    exact clearOf_of_disjoint made member otherMember read some_ (right.unreused m member)
  · intro ⟨unshared, clear⟩
    have relocated : prepareGraph sched graph place st mem data =
        relocate sched data (allMoves graph place st mem) := by
      rw [prepareGraph_eq made]
      exact foldl_applyMove_of_noneShared once unshared _ [] (append_nil _).symm
    rw [relocated]
    refine ⟨(movesAlone_iff once fresh).mpr unshared, fun r other => relocate_other other,
      fun m member => relocate_copy once member, fun m => moves_inside,
      fun m member other otherMember => moves_disjoint made member otherMember, ?_⟩
    intro m member other otherMember read x both
    have some_ : 0 < m.size graph := by
      have inM := both.1
      unfold Move.Holds at inM
      omega
    exact disjoint_of_clearOf made member otherMember read (clear m member other otherMember read some_)
      x both

/-- Four splits on backend 0, each with an input of 1 MiB from backend 1; the last one also reads
the input of the first. -/
def wrapGraph : CGraph where
  tensor t :=
    { plainTensor with
      op := if t < 7 then .other 0 else .none
      ne := fun i => if i = 0 then 1024 else if i = 1 then 256 else 1
      nb := fun i => if i = 0 then 4 else if i = 1 then 4096 else 1048576
      nbytes := 1048576
      srcs := fun j =>
        if j.val = 0 ∧ t < 7 ∧ t % 2 = 0 then some (100 + t)
        else if j.val = 1 ∧ t = 6 then some 100 else none }
  nodes := List.range 7
  nodup := nodup_range

def wrapPlacement : Placement where
  buffer t := ⟨if t < 7 ∧ t % 2 = 0 then 0 else 1, .compute⟩
  isHost buft := buft = 2
  bytes _ _ := 0

def wrapMemory : Memory where
  nBackends := 3
  isCpu backend := backend = 2
  maxExtraAlloc := 3 * 1048576
  inputMemory _ := none
  allocBase _ _ := 1024 * 16777216

def wrapAddresses : Addresses
  | .tensor t => some (t * 16777216 + 8 * 1048576)
  | .copy t _ _ => some (t * 16777216 + 9 * 1048576)

def wrapBackends (t : TensorId) : BackendId := if t < 7 ∧ t % 2 = 0 then 0 else 1

def wrapState : SplitState :=
  okOr (splitStart wrapGraph wrapBackends 0) (splitGraph twoBackends wrapGraph wrapBackends 0)

def firstCopy : Move := ⟨⟨0, 0, 1, [100]⟩, 100, 1024 * 16777216, ⟨0, 0, 1048576⟩, 1024 * 16777216⟩

def lastCopy : Move := ⟨⟨0, 6, 7, [106]⟩, 106, 1024 * 16777216, ⟨1, 0, 1048576⟩, 1024 * 16777216⟩

theorem wrap_made : splitGraph twoBackends wrapGraph wrapBackends 0 = .ok wrapState :=
  okOr_eq (by decide +kernel)

theorem splitGraph_partition_at_wrap : (listedInputs wrapState.splits).Nodup :=
  (splitGraph_partition wrap_made).1

theorem wrap_moves : firstCopy ∈ allMoves wrapGraph wrapPlacement wrapState wrapMemory ∧
    lastCopy ∈ allMoves wrapGraph wrapPlacement wrapState wrapMemory := by
  decide +kernel

theorem wrap_readAfter : ReadAfter twoBackends wrapGraph wrapState firstCopy lastCopy := by
  refine ⟨rfl, by decide, 6, 6, ⟨1, by decide⟩, by decide +kernel, by decide +kernel, by decide⟩

theorem wrap_fresh (r : TensorRef) :
    ∀ m ∈ allMoves wrapGraph wrapPlacement wrapState wrapMemory, wrapAddresses r ≠ some m.address := by
  have low : ∀ m ∈ allMoves wrapGraph wrapPlacement wrapState wrapMemory,
      m.address % 16777216 < 8 * 1048576 := by decide +kernel
  intro m member same
  have bound := low m member
  cases r with
  | tensor t =>
    simp only [wrapAddresses, Option.some.injEq] at same
    omega
  | copy t b c =>
    simp only [wrapAddresses, Option.some.injEq] at same
    omega

theorem wrap_overlap : firstCopy.Holds wrapGraph (1024 * 16777216) ∧
    lastCopy.Holds wrapGraph (1024 * 16777216) := by
  unfold Move.Holds
  decide

/-- The last split's input is placed over the copy that its node still reads. -/
theorem wrapped_copy_overwritten :
    ¬ PreparedRight twoBackends wrapGraph wrapPlacement wrapState wrapMemory wrapAddresses
      (prepareGraph twoBackends wrapGraph wrapPlacement wrapState wrapMemory wrapAddresses) :=
  fun right => right.unreused firstCopy wrap_moves.1 lastCopy wrap_moves.2 wrap_readAfter _ wrap_overlap

theorem wrap_not_clear :
    ¬ (NoneShared twoBackends wrapGraph wrapState wrapAddresses
        (allMoves wrapGraph wrapPlacement wrapState wrapMemory) ∧
      ∀ m ∈ allMoves wrapGraph wrapPlacement wrapState wrapMemory,
        ∀ other ∈ allMoves wrapGraph wrapPlacement wrapState wrapMemory,
          ReadAfter twoBackends wrapGraph wrapState m other → 0 < m.size wrapGraph → ClearOf m other) :=
  fun both => ((prepareGraph_right_iff wrap_made wrap_fresh).mpr both).unreused firstCopy wrap_moves.1
    lastCopy wrap_moves.2 wrap_readAfter _ wrap_overlap

end LlamaCpp.Sched
