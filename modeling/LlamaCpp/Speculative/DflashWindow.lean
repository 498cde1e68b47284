import LlamaCpp.Lib.RingBlocks

/-!
# The target window of the dflash drafter

The feature rows of the last target positions stand in a ring; a straight copy of them is made
only when it is read.  The window is lengthened or replaced by appended rows, cut off by a trim,
and closed over the positions that a context shift discards.

One value stands for one row of `n_target_features` floats, as every copy of the source is of
whole rows.  The staging vector of positions, which is empty between the calls, and the reset
of the draft context's own cache are left out.
-/

set_option autoImplicit false

namespace LlamaCpp.Speculative

open LlamaCpp.Lib

/-- The largest `llama_pos` and `int32_t`. -/
def int32Max : Nat := 2147483647

/-- The largest `size_t`. -/
def sizeMax : Nat := 2 ^ 64 - 1

/-- The window of `common_speculative_state_dflash`. -/
structure DflashState (α : Type) where
  crossCtx : Nat
  nTargetFeatures : Nat
  targetWindow : List α
  targetWindowPos : List Int
  targetWindowRing : List α
  targetWindowAppendFeatures : List α
  targetWindowRows : Nat
  targetWindowRingWritePos : Nat
  targetWindowRingFilled : Nat
  targetWindowVersion : Nat
  targetWindowKeepRows : Nat
  targetWindowAppendRows : Nat
  targetWindowReplace : Bool
  targetWindowMaterialized : Bool
  sequenceStartPosition : Int
  coverageStartPosition : Int
  nextPosition : Int
  lastTargetPos : Int

inductive FeatureKind
  | none_
  | hiddenState
  deriving DecidableEq

/-- `llama_spec_feature_row_view`; no data is the null pointer. -/
structure FeatureRow (α : Type) where
  seqId : Int
  pos : Int
  data : Option α

structure FeatureView (α : Type) where
  kind : FeatureKind
  width : Nat
  rows : List (FeatureRow α)

/-- `vector::resize`. -/
def resizeRows {β : Type} [Inhabited β] (count : Nat) (rows : List β) : List β :=
  rows.take count ++ List.replicate (count - rows.length) default

theorem resizeRows_of_le {β : Type} [Inhabited β] {count : Nat} {rows : List β}
    (fewer : count ≤ rows.length) : resizeRows count rows = rows.take count := by
  rw [resizeRows, Nat.sub_eq_zero_of_le fewer]
  exact List.append_nil _

theorem length_resizeRows {β : Type} [Inhabited β] (count : Nat) (rows : List β) :
    (resizeRows count rows).length = count := by
  rw [resizeRows, List.length_append, List.length_take, List.length_replicate]
  omega

section Window

variable {α : Type} [Inhabited α]

def recordWindowUpdate (state : DflashState α) (keepRows appendRows : Nat) (replace : Bool) :
    DflashState α :=
  { state with
    targetWindowKeepRows := keepRows
    targetWindowAppendRows := appendRows
    targetWindowReplace := replace
    targetWindowVersion := state.targetWindowVersion + 1 }

/-- The ring, resized where it is not yet of `cross_ctx` rows. -/
def sizedRing (state : DflashState α) : List α :=
  if state.targetWindowRing.length ≠ state.crossCtx then
    resizeRows state.crossCtx state.targetWindowRing
  else state.targetWindowRing

def ringResetRows (state : DflashState α) (rows : List α) (nRows : Nat) : DflashState α :=
  if nRows = 0 ∨ rows = [] then
    { state with targetWindowRingWritePos := 0, targetWindowRingFilled := 0 }
  else
    { state with
      targetWindowRing := writeBlock (sizedRing state) 0 (rows.take nRows)
      targetWindowRingWritePos := nRows % state.crossCtx
      targetWindowRingFilled := nRows
      targetWindowMaterialized := false }

/-- Each round of the loop copies a row at least, so that there are at most `n_rows` rounds. -/
def ringAppendRows (state : DflashState α) (rows : List α) (nRows : Nat) : DflashState α :=
  if nRows = 0 ∨ rows = [] then state
  else
    let copied := copyRows state.crossCtx nRows
      (sizedRing state, state.targetWindowRingWritePos) (rows.take nRows)
    { state with
      targetWindowRing := copied.1
      targetWindowRingWritePos := copied.2
      targetWindowRingFilled := min state.crossCtx (state.targetWindowRingFilled + nRows)
      targetWindowMaterialized := false }

def materializeTargetWindowFeatures (state : DflashState α) : DflashState α :=
  if state.targetWindowMaterialized = true ∨ state.targetWindowRows = 0 then state
  else
    let window := resizeRows state.targetWindowRows state.targetWindow
    let readStart := (state.targetWindowRingWritePos + state.crossCtx - state.targetWindowRows) %
      state.crossCtx
    let firstRows := min state.targetWindowRows (state.crossCtx - readStart)
    let window := writeBlock window 0 ((state.targetWindowRing.drop readStart).take firstRows)
    let secondRows := state.targetWindowRows - firstRows
    let window :=
      if 0 < secondRows then
        writeBlock window firstRows (state.targetWindowRing.take secondRows)
      else window
    { state with targetWindow := window, targetWindowMaterialized := true }

def horizonStart (state : DflashState α) : Int :=
  max state.sequenceStartPosition (state.nextPosition - state.crossCtx)

def expectedWindowStart (state : DflashState α) : Int :=
  max state.coverageStartPosition (horizonStart state)

def windowIsValid (state : DflashState α) : Bool :=
  if state.crossCtx = 0 ∨ state.nTargetFeatures = 0 ∨ state.sequenceStartPosition < 0 ∨
      state.sequenceStartPosition > state.coverageStartPosition ∨
      state.coverageStartPosition > state.nextPosition ∨
      state.targetWindowRows > state.crossCtx ∨
      state.targetWindowRows ≠ state.targetWindowPos.length then false
  else
    let windowStart :=
      if 0 < state.targetWindowRows then state.targetWindowPos.headD 0 else state.nextPosition
    if windowStart ≠ expectedWindowStart state ∨
        state.nextPosition - windowStart ≠ state.targetWindowRows then false
    else
      (List.range state.targetWindowRows).all fun i =>
        state.targetWindowPos[i]? == some (windowStart + i)

def matchingRows (sequenceStart seqId : Int) : List (FeatureRow α) → Option (List (Int × α))
  | [] => some []
  | row :: rows =>
    match row.data with
    | none => matchingRows sequenceStart seqId rows
    | some data =>
      if row.seqId ≠ seqId then matchingRows sequenceStart seqId rows
      else if row.pos < sequenceStart then none
      else (matchingRows sequenceStart seqId rows).map fun later => (row.pos, data) :: later

def suffixStartFrom (start i : Nat) (previous : Int) : List Int → Nat
  | [] => start
  | pos :: rest =>
    suffixStartFrom (if previous = int32Max ∨ pos ≠ previous + 1 then i else start) (i + 1)
      pos rest

def suffixStart : List Int → Nat
  | [] => 0
  | first :: rest => suffixStartFrom 0 1 first rest

/-- The branch of `dflash_append_target_features` that keeps no old row. -/
def replaceWindow (state : DflashState α) (newRows : List (Int × α)) (nRows : Nat)
    (coverage next : Int) : DflashState α :=
  let replacementRows := min nRows state.crossCtx
  let replacement := newRows.drop (newRows.length - replacementRows)
  let features := replacement.map Prod.snd
  recordWindowUpdate
    { state with
      targetWindow := []
      targetWindowPos := replacement.map Prod.fst
      targetWindowAppendFeatures := features
      targetWindowRing := writeBlock (List.replicate state.crossCtx default) 0 features
      targetWindowRows := replacementRows
      targetWindowRingWritePos := replacementRows % state.crossCtx
      targetWindowRingFilled := replacementRows
      targetWindowMaterialized := false
      coverageStartPosition := coverage
      nextPosition := next
      lastTargetPos := (replacement.map Prod.fst).getLastD 0 }
    0 replacementRows true

def extendWindow (state : DflashState α) (appended : List (Int × α)) (nRows : Nat) (next : Int) :
    DflashState α :=
  let keepOldRows := min state.targetWindowRows (state.crossCtx - nRows)
  let features := appended.map Prod.snd
  let positions := state.targetWindowPos.drop (state.targetWindowPos.length - keepOldRows) ++
    appended.map Prod.fst
  let written := ringAppendRows { state with targetWindowAppendFeatures := features } features nRows
  recordWindowUpdate
    { written with
      targetWindowPos := positions
      targetWindowRows := keepOldRows + nRows
      targetWindowRingFilled := keepOldRows + nRows
      nextPosition := next
      lastTargetPos := positions.getLastD 0 }
    keepOldRows nRows false

def appendTargetFeatures (state : DflashState α) (features : FeatureView α) (seqId : Int) :
    Bool × DflashState α :=
  if features.kind ≠ .hiddenState ∨ features.width ≠ state.nTargetFeatures ∨
      features.rows = [] ∨ state.crossCtx = 0 then (false, state)
  else if features.rows.length > sizeMax / state.nTargetFeatures then (false, state)
  else
    match matchingRows state.sequenceStartPosition seqId features.rows with
    | none => (false, state)
    | some newRows =>
      let newPositions := newRows.map Prod.fst
      if newPositions = [] then (false, state)
      else if newPositions.getLastD 0 = int32Max then (false, state)
      else
        let continuesWindow := suffixStart newPositions = 0 ∧
          newPositions.headD 0 = state.nextPosition ∧ windowIsValid state = true
        let appendStart := if continuesWindow then 0 else suffixStart newPositions
        let appendCount := newPositions.length - appendStart
        if appendCount = 0 ∨ appendCount > int32Max then (false, state)
        else
          let next := newPositions.getLastD 0 + 1
          let coverage :=
            if continuesWindow then state.coverageStartPosition
            else newPositions.getD appendStart 0
          if ¬ continuesWindow ∨ appendCount ≥ state.crossCtx then
            if state.nTargetFeatures > sizeMax / state.crossCtx then (false, state)
            else
              let replaced := replaceWindow state newRows appendCount coverage next
              (windowIsValid replaced, replaced)
          else
            let extended := extendWindow state (newRows.drop appendStart) appendCount next
            (windowIsValid extended, extended)

def clearTargetFeatures (state : DflashState α) : DflashState α :=
  { state with
    targetWindow := []
    targetWindowPos := []
    targetWindowAppendFeatures := []
    targetWindowRows := 0
    targetWindowRingWritePos := 0
    targetWindowRingFilled := 0
    targetWindowKeepRows := 0
    targetWindowAppendRows := 0
    targetWindowReplace := false
    targetWindowMaterialized := false
    coverageStartPosition := state.nextPosition
    lastTargetPos := -1 }

/-- `lower_bound` over the ascending positions of the window. -/
def lowerBound (positions : List Int) (pos : Int) : Nat :=
  (positions.takeWhile (· < pos)).length

def trimTargetFeatures (state : DflashState α) (posBegin : Int) : DflashState α :=
  if posBegin < state.sequenceStartPosition ∨ posBegin > state.nextPosition then state
  else if posBegin = state.nextPosition then state
  else if state.targetWindowRows = 0 ∨ state.targetWindowPos = [] then
    clearTargetFeatures { state with nextPosition := posBegin }
  else
    let keepRows := lowerBound state.targetWindowPos posBegin
    if keepRows = 0 then clearTargetFeatures { state with nextPosition := posBegin }
    else
      let linear := materializeTargetWindowFeatures state
      let window := resizeRows keepRows linear.targetWindow
      let positions := resizeRows keepRows linear.targetWindowPos
      let kept := ringResetRows
        { linear with
          targetWindow := window
          targetWindowPos := positions
          targetWindowAppendFeatures := []
          targetWindowRows := keepRows }
        window keepRows
      recordWindowUpdate
        { kept with
          coverageStartPosition := positions.headD 0
          nextPosition := posBegin
          lastTargetPos := positions.getLastD 0 }
        0 keepRows true

def shiftBoundary (discardBegin discardEnd kvDiscard position : Int) : Int :=
  if position ≤ discardBegin then position
  else if position < discardEnd then discardBegin
  else position - kvDiscard

/-- One round of the loop of `dflash_context_shift` over the rows. -/
def shiftRow (discardBegin discardEnd kvDiscard kvPast : Int) (row : Int × α) : Option (Int × α) :=
  if row.1 ≥ discardBegin ∧ row.1 < discardEnd then none
  else if row.1 ≥ discardEnd ∧ row.1 < kvPast then some (row.1 - kvDiscard, row.2)
  else some row

/-- What `dflash_context_shift` does last. -/
def finishShift (state : DflashState α) : DflashState α :=
  let written := ringResetRows state state.targetWindow state.targetWindowRows
  recordWindowUpdate { written with lastTargetPos := state.targetWindowPos.getLastD 0 }
    0 state.targetWindowRows true

/-- `dflash_context_shift` from where the shifted rows stand in the window. -/
def placeShifted (state : DflashState α) : DflashState α :=
  if state.targetWindowRows = 0 then clearTargetFeatures state
  else
    let expected := expectedWindowStart state
    let front := state.targetWindowPos.headD 0
    if front < expected then
      let discardRows := (expected - front).toNat
      if discardRows ≥ state.targetWindowRows then clearTargetFeatures state
      else
        finishShift
          { state with
            targetWindow := state.targetWindow.drop discardRows
            targetWindowPos := state.targetWindowPos.drop discardRows
            targetWindowRows := state.targetWindowRows - discardRows }
    else if front > expected then finishShift { state with coverageStartPosition := front }
    else finishShift state

def contextShift (state : DflashState α) (kvKeep kvDiscard kvPast : Int) : DflashState α :=
  if kvDiscard ≤ 0 ∨ kvKeep < state.sequenceStartPosition ∨ kvKeep + kvDiscard > kvPast then state
  else
    let state :=
      if state.nextPosition ≠ kvPast then clearTargetFeatures { state with nextPosition := kvPast }
      else state
    let discardEnd := kvKeep + kvDiscard
    let shiftedNext := kvPast - kvDiscard
    if state.targetWindowRows = 0 ∨ state.targetWindowPos = [] then
      clearTargetFeatures { state with nextPosition := shiftedNext }
    else
      let linear := materializeTargetWindowFeatures state
      let rows := (linear.targetWindowPos.zip linear.targetWindow).take linear.targetWindowRows
      let shifted := rows.filterMap (shiftRow kvKeep discardEnd kvDiscard kvPast)
      placeShifted
        { linear with
          targetWindow := shifted.map Prod.snd
          targetWindowPos := shifted.map Prod.fst
          targetWindowRows := shifted.length
          coverageStartPosition :=
            shiftBoundary kvKeep discardEnd kvDiscard linear.coverageStartPosition
          nextPosition := shiftedNext }

end Window

end LlamaCpp.Speculative
