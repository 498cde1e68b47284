import LlamaCpp.Sched.PrepareGraph
import LlamaCpp.Sched.SplitInvariant

/-!
# The moves of the input copies

Both loops over the splits together come down to a list of moves, each with the
address the copy is given; the addresses depend on sizes only.  A move is meant
for one copy, and it is one if no source visited before the copy has its address.
-/

set_option autoImplicit false

namespace LlamaCpp.Sched

open LlamaCpp.Lib List Bool

/-- The move of an input: its split lies at `spot` of the buffer at `base`. -/
structure Move where
  split : Split
  input : TensorId
  base : Nat
  spot : Spot
  address : Nat
  deriving DecidableEq

variable (sched : BackendSched) (graph : CGraph) (place : Placement) (st : SplitState)

def Move.copy (m : Move) : TensorRef := .copy m.input m.split.backendId sched.curCopy

def applyMove (data : Addresses) (m : Move) : Addresses :=
  moveInput (visitedSources graph st m.split) (m.copy sched) m.address data

def inputMoves (split : Split) (base : Nat) (spot : Spot) : List TensorId → Nat → List Move
  | [], _ => []
  | t :: rest, offset =>
    ⟨split, t, base, spot, base + spot.start + offset⟩ ::
      inputMoves split base spot rest (offset + tensorSize graph t)

def packedSplits (size window used : Nat) (splits : List Split) : List (Split × Spot) :=
  splits.zip (pack size window used (splits.map (splitSize graph place)))

def packedMoves (base : Nat) (packed : List (Split × Spot)) : List Move :=
  packed.flatMap fun entry => inputMoves graph entry.1 base entry.2 (movedInputs place entry.1) 0

def backendMoves (mem : Memory) (backend : BackendId) : List Move :=
  if mem.isCpu backend then []
  else
    match maxInputSize graph place mem.maxExtraAlloc (backendSplits st backend) with
    | none => []
    | some size =>
      if size = 0 then []
      else packedMoves graph place (bufferOf mem backend size).base
        (packedSplits graph place size 0 0 (backendSplits st backend))

def allMoves (mem : Memory) : List Move :=
  (List.range mem.nBackends).flatMap (backendMoves graph place st mem)

variable {sched graph place st}

theorem moveInputs_eq {split : Split} (base : Nat) (spot : Spot) {inputs : List TensorId}
    (copies : ∀ t ∈ inputs, st.copies t split.backendId sched.curCopy =
      some (.copy t split.backendId sched.curCopy)) (offset : Nat) (data : Addresses) :
    moveInputs sched graph st split inputs (base + spot.start + offset) data =
      (inputMoves graph split base spot inputs offset).foldl (applyMove sched graph st) data := by
  induction inputs generalizing offset data with
  | nil => rfl
  | cons t rest ih =>
    rw [moveInputs, copies t mem_cons_self, inputMoves, foldl_cons,
      ← ih fun other member => copies other (mem_cons_of_mem _ member), add_assoc]
    rfl

variable {base : Nat} {mem : Memory} {split : Split} {m : Move}

theorem foldl_placeSplit {size : Nat} {splits : List Split}
    (copies : ∀ split ∈ splits, ∀ t ∈ split.inputs, st.copies t split.backendId sched.curCopy = some (.copy t split.backendId sched.curCopy))
    (window used : Nat) (data : Addresses) :
    (splits.foldl (placeSplit sched graph place st base size) ⟨data, used⟩).data =
      (packedMoves graph place base (packedSplits graph place size window used splits)).foldl
        (applyMove sched graph st) data := by
  induction splits generalizing window used data with
  | nil => rfl
  | cons split rest ih =>
    have others := fun other member => copies other (mem_cons_of_mem split member)
    have here : ∀ t ∈ movedInputs place split, st.copies t split.backendId sched.curCopy =
        some (.copy t split.backendId sched.curCopy) := fun t member =>
      copies split mem_cons_self t (mem_filter.mp member).1
    have stepped : ∀ (spot : Spot) (used : Nat), spot.start = used →
        (rest.foldl (placeSplit sched graph place st base size)
          ⟨moveInputs sched graph st split (movedInputs place split) (base + used) data,
            used + splitSize graph place split⟩).data =
        (packedMoves graph place base ((split, spot) ::
          packedSplits graph place size spot.window (used + splitSize graph place split) rest)).foldl
            (applyMove sched graph st) data := by
      intro spot used same
      have moved := @moveInputs_eq sched graph st split base spot _ here 0 data
      rw [add_zero, same] at moved
      rw [ih others spot.window, moved, packedMoves, packedMoves, flatMap_cons, foldl_append]
    rw [foldl_cons, packedSplits, map_cons, pack, placeSplit]
    by_cases wraps : size < used + splitSize graph place split
    · simp only [if_pos wraps]
      have result := stepped ⟨window + 1, 0, splitSize graph place split⟩ 0 rfl
      rw [zero_add] at result
      rw [zero_add, result]
      rfl
    · simp only [if_neg wraps]
      exact stepped ⟨window, used, splitSize graph place split⟩ used rfl

theorem prepareBackend_eq {backend : BackendId} {oldBackend : BackendId}
    {backendIds : TensorId → BackendId}
    (made : splitGraph sched graph backendIds oldBackend = .ok st) (data : Addresses) :
    prepareBackend sched graph place st mem data backend =
      (backendMoves graph place st mem backend).foldl (applyMove sched graph st) data := by
  have copies : ∀ split ∈ backendSplits st backend, ∀ t ∈ split.inputs,
      st.copies t split.backendId sched.curCopy = some (.copy t split.backendId sched.curCopy) :=
    fun split member t lists => splitGraph_copies made ⟨split, (mem_filter.mp member).1, rfl, lists⟩
  unfold prepareBackend backendMoves
  cases cpu : mem.isCpu backend with
  | true => rfl
  | false =>
    cases maxInputSize graph place mem.maxExtraAlloc (backendSplits st backend) with
    | none => rfl
    | some size =>
      by_cases empty : size = 0
      · simp [empty]
      · simp only [if_neg empty]
        exact foldl_placeSplit copies 0 0 data

theorem prepareGraph_eq {oldBackend : BackendId} {backendIds : TensorId → BackendId}
    (made : splitGraph sched graph backendIds oldBackend = .ok st) (data : Addresses) :
    prepareGraph sched graph place st mem data =
      (allMoves graph place st mem).foldl (applyMove sched graph st) data := by
  unfold prepareGraph allMoves
  generalize List.range mem.nBackends = backends
  induction backends generalizing data with
  | nil => rfl
  | cons backend rest ih =>
    rw [foldl_cons, ih, prepareBackend_eq made, flatMap_cons, foldl_append]

def Move.size (graph : CGraph) (m : Move) : Nat := tensorSize graph m.input

theorem inputMoves_mem {spot : Spot} {inputs : List TensorId} {offset : Nat}
    (member : m ∈ inputMoves graph split base spot inputs offset) :
    m.split = split ∧ m.base = base ∧ m.spot = spot ∧ m.input ∈ inputs ∧
      base + spot.start + offset ≤ m.address ∧
      m.address + m.size graph ≤ base + spot.start + offset + (inputs.map (tensorSize graph)).sum := by
  induction inputs generalizing offset with
  | nil => cases member
  | cons t rest ih =>
    rw [map_cons, sum_cons]
    rcases mem_cons.mp member with rfl | later
    · refine ⟨rfl, rfl, rfl, mem_cons_self, le_refl _, ?_⟩
      simp only [Move.size]
      omega
    · obtain ⟨sameSplit, sameBase, sameSpot, input, low, high⟩ := ih later
      exact ⟨sameSplit, sameBase, sameSpot, mem_cons_of_mem _ input, by omega, by omega⟩

theorem inputMoves_pairwise (split : Split) (base : Nat) (spot : Spot) (inputs : List TensorId)
    (offset : Nat) :
    (inputMoves graph split base spot inputs offset).Pairwise fun one other =>
      one.address + one.size graph ≤ other.address := by
  induction inputs generalizing offset with
  | nil => exact .nil
  | cons t rest ih =>
    refine pairwise_cons.mpr ⟨fun other later => ?_, ih _⟩
    obtain ⟨-, -, -, -, low, -⟩ := inputMoves_mem later
    simp only [Move.size]
    omega

theorem inputMoves_apart {spot : Spot} {inputs : List TensorId} {offset : Nat} {other : Move}
    (member : m ∈ inputMoves graph split base spot inputs offset)
    (otherMember : other ∈ inputMoves graph split base spot inputs offset) (distinct : m ≠ other) :
    m.address + m.size graph ≤ other.address ∨ other.address + other.size graph ≤ m.address := by
  obtain ⟨i, inside, rfl⟩ := mem_iff_getElem.mp member
  obtain ⟨k, otherInside, rfl⟩ := mem_iff_getElem.mp otherMember
  have ordered := pairwise_iff_getElem.mp
    (@inputMoves_pairwise graph split base spot inputs offset)
  rcases lt_trichotomy i k with less | same | more
  · exact .inl (ordered i k inside otherInside less)
  · subst same
    exact absurd rfl distinct
  · exact .inr (ordered k i otherInside inside more)

theorem inputMoves_filled {split : Split} {base : Nat} {spot : Spot} {inputs : List TensorId}
    {offset x : Nat} (low : base + spot.start + offset ≤ x)
    (high : x < base + spot.start + offset + (inputs.map (tensorSize graph)).sum) :
    ∃ m ∈ inputMoves graph split base spot inputs offset,
      m.address ≤ x ∧ x < m.address + m.size graph := by
  induction inputs generalizing offset with
  | nil =>
    rw [map_nil, sum_nil] at high
    omega
  | cons t rest ih =>
    rw [map_cons, sum_cons] at high
    by_cases here : x < base + spot.start + offset + tensorSize graph t
    · exact ⟨_, mem_cons_self, low, here⟩
    · obtain ⟨m, member, found⟩ := @ih (offset + tensorSize graph t) (by omega) (by omega)
      exact ⟨m, mem_cons_of_mem _ member, found⟩

theorem measure_le {maxExtraAlloc : Nat} {entries : List (Split × Nat)} {m final : Measure}
    (ran : entries.foldlM (measureSplit graph place maxExtraAlloc) m = some final) :
    max m.maxInputSize m.inputSize ≤ max final.maxInputSize final.inputSize ∧
      ∀ entry ∈ entries, splitSize graph place entry.1 ≤ max final.maxInputSize final.inputSize := by
  induction entries generalizing m with
  | nil =>
    cases ran
    exact ⟨le_refl _, nofun⟩
  | cons entry rest ih =>
    obtain ⟨middle, first, ran⟩ := Option.bind_eq_some_iff.mp ran
    obtain ⟨grows, others⟩ := ih ran
    have here : max m.maxInputSize m.inputSize ≤ max middle.maxInputSize middle.inputSize ∧
        splitSize graph place entry.1 ≤ max middle.maxInputSize middle.inputSize := by
      unfold measureSplit at first
      split at first
      · cases first
        have noInputs : entry.1.inputs = [] := eq_nil_of_length_eq_zero (by omega)
        simp [splitSize, movedInputs, noInputs]
      · split at first
        · split at first
          · cases first
          · cases first
            simp only
            omega
        · cases first
          simp only
          omega
    refine ⟨le_trans here.1 grows, fun other member => ?_⟩
    rcases mem_cons.mp member with rfl | later
    · exact le_trans here.2 grows
    · exact others other later

theorem splitSize_le {maxExtraAlloc size : Nat} {splits : List Split}
    (measured : maxInputSize graph place maxExtraAlloc splits = some size)
    (member : split ∈ splits) : splitSize graph place split ≤ size := by
  obtain ⟨final, ran, rfl⟩ := Option.map_eq_some_iff.mp measured
  obtain ⟨i, inside, value⟩ := mem_iff_getElem.mp member
  refine (measure_le ran).2 (split, i) ?_
  rw [mem_zipIdx_iff_getElem?, List.getElem?_eq_getElem inside, value]

/-- Where a move comes from: the `i`-th split of a backend whose buffer is used. -/
structure Placed (graph : CGraph) (place : Placement) (st : SplitState) (mem : Memory) (m : Move)
    (size i : Nat) : Prop where
  backend : m.split.backendId < mem.nBackends
  noCpu : mem.isCpu m.split.backendId = false
  used : size ≠ 0
  measured : maxInputSize graph place mem.maxExtraAlloc (backendSplits st m.split.backendId) = some size
  splitAt : (backendSplits st m.split.backendId)[i]? = some m.split
  spotAt : (pack size 0 0 ((backendSplits st m.split.backendId).map (splitSize graph place)))[i]? =
    some m.spot
  moves : m ∈ inputMoves graph m.split (bufferOf mem m.split.backendId size).base m.spot
    (movedInputs place m.split) 0

theorem mem_allMoves :
    m ∈ allMoves graph place st mem ↔ ∃ size i, Placed graph place st mem m size i := by
  constructor
  · intro member
    obtain ⟨backend, inRange, member⟩ := mem_flatMap.mp member
    unfold backendMoves at member
    cases cpu : mem.isCpu backend with
    | true => simp [cpu] at member
    | false =>
      simp only [cpu, false_eq_true, if_false] at member
      cases measured : maxInputSize graph place mem.maxExtraAlloc (backendSplits st backend) with
      | none => simp [measured] at member
      | some size =>
        simp only [measured] at member
        split at member
        · cases member
        · rename_i used
          obtain ⟨⟨split, spot⟩, entry, member⟩ := mem_flatMap.mp member
          obtain ⟨rfl, sameBase, rfl, -, -, -⟩ := inputMoves_mem member
          obtain ⟨i, inside, value⟩ := mem_iff_getElem.mp entry
          have zipped : (packedSplits graph place size 0 0 (backendSplits st backend))[i]? =
              some (m.split, m.spot) := List.getElem?_eq_some_iff.mpr ⟨inside, value⟩
          obtain ⟨splitAt, spotAt⟩ := List.getElem?_zip_eq_some.mp zipped
          have sameBackend : m.split.backendId = backend := by
            have filtered := mem_filter.mp (mem_of_getElem? splitAt)
            simpa using filtered.2
          subst sameBackend
          exact ⟨size, i, mem_range.mp inRange, cpu, used, measured, splitAt, spotAt, member⟩
  · rintro ⟨size, i, placed⟩
    refine mem_flatMap.mpr ⟨m.split.backendId, mem_range.mpr placed.backend, ?_⟩
    unfold backendMoves
    simp only [placed.noCpu, placed.measured, if_neg placed.used]
    refine mem_flatMap.mpr ⟨(m.split, m.spot), ?_, placed.moves⟩
    exact mem_of_getElem? (List.getElem?_zip_eq_some.mpr ⟨placed.splitAt, placed.spotAt⟩)

end LlamaCpp.Sched
