import LlamaCpp.Speculative.DflashPositions

/-!
# Runs of the dflash window

Beside the window stands what it is a window of: a map from positions to the row last appended
for the token there.  A trim erases its end and a context shift moves the tokens behind the
discarded ones forward.  Over any calls the ring holds the rows of the last covered positions.
-/

set_option autoImplicit false

namespace LlamaCpp.Speculative

open LlamaCpp.Lib List

section Record

variable {α : Type}

/-! ## What was appended -/

def recordRow (record : Int → Option α) (row : Int × α) : Int → Option α :=
  fun pos => if pos = row.1 then some row.2 else record pos

def recordRows (record : Int → Option α) (rows : List (Int × α)) : Int → Option α :=
  rows.foldl recordRow record

def sequenceRows (seqId : Int) (rows : List (FeatureRow α)) : List (Int × α) :=
  rows.filterMap fun row => if row.seqId = seqId then row.data.map (Prod.mk row.pos) else none

theorem recordRows_cons (record : Int → Option α) (row : Int × α) (rows : List (Int × α)) :
    recordRows record (row :: rows) = recordRows (recordRow record row) rows :=
  rfl

theorem recordRows_of_notMem {record : Int → Option α} {rows : List (Int × α)} {pos : Int}
    (other : pos ∉ rows.map Prod.fst) : recordRows record rows pos = record pos := by
  induction rows generalizing record with
  | nil => rfl
  | cons row rows ih =>
    rw [map_cons, mem_cons, not_or] at other
    rw [recordRows_cons, ih other.2, recordRow, if_neg other.1]

theorem map_recordRows {record : Int → Option α} {rows : List (Int × α)}
    (distinct : (rows.map Prod.fst).Nodup) :
    (rows.map Prod.snd).map some = (rows.map Prod.fst).map (recordRows record rows) := by
  induction rows generalizing record with
  | nil => rfl
  | cons row rows ih =>
    rw [map_cons, nodup_cons] at distinct
    have first : recordRows record (row :: rows) row.1 = some row.2 := by
      rw [recordRows_cons, recordRows_of_notMem distinct.1, recordRow, if_pos rfl]
    rw [map_cons, map_cons, map_cons, map_cons, first, ih distinct.2]
    rfl

theorem recordRows_append (record : Int → Option α) (rows more : List (Int × α)) :
    recordRows record (rows ++ more) = recordRows (recordRows record rows) more :=
  foldl_append

theorem matchingRows_eq {sequenceStart seqId : Int} {rows : List (FeatureRow α)}
    {matching : List (Int × α)} (accepted : matchingRows sequenceStart seqId rows = some matching) :
    matching = sequenceRows seqId rows ∧ ∀ row ∈ matching, sequenceStart ≤ row.1 := by
  induction rows generalizing matching with
  | nil =>
    rw [matchingRows, Option.some.injEq] at accepted
    subst accepted
    exact ⟨rfl, fun row among => absurd among not_mem_nil⟩
  | cons row rows ih =>
    rw [sequenceRows, filterMap_cons, ← sequenceRows]
    rw [matchingRows] at accepted
    cases data : row.data with
    | none =>
      rw [data] at accepted
      simpa using ih accepted
    | some values =>
      rw [data] at accepted
      dsimp only at accepted
      by_cases other : row.seqId ≠ seqId
      · rw [if_pos other] at accepted
        rw [if_neg other]
        exact ih accepted
      · rw [if_neg other] at accepted
        rw [if_pos (not_not.mp other)]
        split at accepted
        · exact absurd accepted (Option.some_ne_none _).symm
        · rename_i notBefore
          obtain ⟨later, rest, placed⟩ := Option.map_eq_some_iff.mp accepted
          subst placed
          obtain ⟨same, after⟩ := ih rest
          subst same
          exact ⟨rfl, forall_mem_cons.mpr ⟨not_lt.mp notBefore, after⟩⟩

end Record

/-! ## The ring -/

def RingHolds {α : Type} (state : DflashState α) (contents : List α) : Prop :=
  ∃ rb : RingBuffer α, rb.data = state.targetWindowRing ∧
    rb.pos = state.targetWindowRingWritePos ∧ rb.capacity = state.crossCtx ∧
    rb.toVector = contents

theorem RingHolds.sized {α : Type} {state : DflashState α} {contents : List α}
    (holds : RingHolds state contents) :
    state.targetWindowRing.length = state.crossCtx ∧ contents.length ≤ state.crossCtx := by
  obtain ⟨rb, data, pos, capacity, contents_⟩ := holds
  rw [← data, ← capacity, ← contents_, RingBuffer.length_toVector]
  exact ⟨rb.room, rb.fits⟩

section Window

variable {α : Type} [Inhabited α]

theorem sizedRing_eq {state : DflashState α}
    (sized : state.targetWindowRing.length = state.crossCtx) :
    sizedRing state = state.targetWindowRing :=
  if_neg (not_not.mpr sized)

theorem ringResetRows_holds {state : DflashState α} {rows : List α}
    (sized : state.targetWindowRing.length = state.crossCtx)
    (fits : rows.length ≤ state.targetWindowRing.length) :
    RingHolds (ringResetRows state rows rows.length) rows := by
  refine ⟨RingBuffer.ofBlock state.targetWindowRing rows fits, ?_, ?_, ?_,
    RingBuffer.toVector_ofBlock fits⟩
  · unfold ringResetRows
    split
    · rename_i none_
      have empty : rows = [] := none_.elim eq_nil_of_length_eq_zero id
      subst empty
      exact writeBlock_nil _ _
    · rw [sizedRing_eq sized, take_length]
      rfl
  · unfold ringResetRows
    split
    · rename_i none_
      have empty : rows = [] := none_.elim eq_nil_of_length_eq_zero id
      subst empty
      exact Nat.zero_mod _
    · rw [← sized]
      rfl
  · unfold ringResetRows
    split
    · exact sized
    · exact sized

theorem ringResetRows_frame (state : DflashState α) (rows : List α) (nRows : Nat) :
    ∃ ring place filled flag, ringResetRows state rows nRows =
      { state with
        targetWindowRing := ring
        targetWindowRingWritePos := place
        targetWindowRingFilled := filled
        targetWindowMaterialized := flag } := by
  unfold ringResetRows
  split
  · exact ⟨_, _, _, _, rfl⟩
  · exact ⟨_, _, _, _, rfl⟩

theorem ringAppendRows_frame (state : DflashState α) {rows : List α} (some_ : rows ≠ []) :
    ∃ ring place filled, ringAppendRows state rows rows.length =
      { state with
        targetWindowRing := ring
        targetWindowRingWritePos := place
        targetWindowRingFilled := filled
        targetWindowMaterialized := false } := by
  unfold ringAppendRows
  rw [if_neg (not_or.mpr ⟨fun none_ => some_ (eq_nil_of_length_eq_zero none_), some_⟩)]
  exact ⟨_, _, _, rfl⟩

theorem ringAppendRows_holds {state : DflashState α} {contents rows : List α}
    (room : 0 < state.crossCtx) (holds : RingHolds state contents) :
    RingHolds (ringAppendRows state rows rows.length)
      ((contents ++ rows).drop (contents.length + rows.length - state.crossCtx)) := by
  have sized := holds.sized
  obtain ⟨rb, data, pos, capacity, contents_⟩ := holds
  unfold ringAppendRows
  split
  · rename_i none_
    have empty : rows = [] := none_.elim eq_nil_of_length_eq_zero id
    subst empty
    refine ⟨rb, data, pos, capacity, ?_⟩
    have all_ : contents.length + ([] : List α).length - state.crossCtx = 0 :=
      Nat.sub_eq_zero_of_le sized.2
    rw [all_, append_nil, contents_]
    rfl
  · obtain ⟨pushed, placed, capacity_, size, result⟩ := rb.exists_pushes (by omega) rows
    have inside : state.targetWindowRingWritePos < state.crossCtx := by
      rw [← pos, ← capacity]
      exact rb.pos_lt (by omega)
    rw [capacity, data, pos, ← @copyRows_eq_pushes _ _ rows.length (_, _) _ sized.1 inside
      (le_refl _)] at placed
    refine ⟨pushed, ?_, ?_, ?_, ?_⟩
    · rw [sizedRing_eq sized.1, take_length, ← placed]
    · rw [sizedRing_eq sized.1, take_length, ← placed]
    · exact capacity_.trans capacity
    · rw [result, ← contents_, RingBuffer.length_toVector, capacity]

theorem materialize_eq {state : DflashState α} {contents : List α}
    (holds : RingHolds state contents) (rows : contents.length = state.targetWindowRows)
    (linear : state.targetWindowMaterialized = true ∨ state.targetWindowRows = 0 →
      state.targetWindow = contents) :
    ∃ flag, materializeTargetWindowFeatures state =
      { state with targetWindow := contents, targetWindowMaterialized := flag } := by
  have sized := holds.sized
  unfold materializeTargetWindowFeatures
  split
  · rename_i already
    exact ⟨state.targetWindowMaterialized, by rw [← linear already]⟩
  · obtain ⟨rb, data, pos, capacity, contents_⟩ := holds
    dsimp only
    generalize start_ : (state.targetWindowRingWritePos + state.crossCtx - state.targetWindowRows) %
      state.crossCtx = start
    generalize first_ : min state.targetWindowRows (state.crossCtx - start) = firstRows
    have size : rb.sz = state.targetWindowRows := by
      rw [← rows, ← contents_, RingBuffer.length_toVector]
    have pieces := @RingBuffer.toVector_pieces _ rb start firstRows
      (by rw [pos, capacity, size, start_]) (by rw [capacity, size, first_])
    rw [contents_, data, size] at pieces
    have firstLength : ((state.targetWindowRing.drop start).take firstRows).length = firstRows := by
      rw [length_take, length_drop]
      omega
    refine ⟨true, ?_⟩
    rw [pieces]
    by_cases second : 0 < state.targetWindowRows - firstRows
    · have secondLength :
          (state.targetWindowRing.take (state.targetWindowRows - firstRows)).length =
            state.targetWindowRows - firstRows := by
        rw [length_take]
        omega
      have both := @writeBlock_twice _ (resizeRows state.targetWindowRows state.targetWindow)
        ((state.targetWindowRing.drop start).take firstRows)
        (state.targetWindowRing.take (state.targetWindowRows - firstRows))
        (by rw [length_resizeRows]; omega)
      rw [firstLength] at both
      rw [if_pos second, both]
    · have none_ : state.targetWindowRows - firstRows = 0 := by omega
      rw [if_neg second, none_, take_zero, append_nil]
      rw [writeBlock_whole (by rw [length_resizeRows]; omega)]

/-! ## The window -/

structure WindowShape (crossCtx : Nat) (state : DflashState α) : Prop where
  capacity : state.crossCtx = crossCtx
  room : 0 < crossCtx
  width : 0 < state.nTargetFeatures
  start : 0 ≤ state.sequenceStartPosition
  sized : state.targetWindowRing.length = crossCtx

/-- The window is of the last covered positions and has the row recorded for each. -/
structure WindowHolds (crossCtx : Nat) (record : Int → Option α) (state : DflashState α) : Prop
    extends WindowShape crossCtx state where
  fromStart : state.sequenceStartPosition ≤ state.coverageStartPosition
  covered : state.coverageStartPosition ≤ state.nextPosition
  rows : state.targetWindowRows =
    min crossCtx (state.nextPosition - state.coverageStartPosition).toNat
  positions : state.targetWindowPos = positionsBefore state.nextPosition state.targetWindowRows
  contents : ∃ contents, RingHolds state contents ∧
    contents.map some = state.targetWindowPos.map record ∧
    (state.targetWindowMaterialized = true ∨ state.targetWindowRows = 0 →
      state.targetWindow = contents)

section Holds

variable {crossCtx : Nat} {record : Int → Option α} {state : DflashState α}

omit [Inhabited α] in
theorem WindowHolds.valid (holds : WindowHolds crossCtx record state) :
    windowIsValid state = true := by
  have capacity := holds.capacity
  have room := holds.room
  have width := holds.width
  have start := holds.start
  have fromStart := holds.fromStart
  have covered := holds.covered
  have rows := holds.rows
  have length : state.targetWindowPos.length = state.targetWindowRows := by
    rw [holds.positions, length_positionsBefore]
  have front : (if 0 < state.targetWindowRows then state.targetWindowPos.headD 0
      else state.nextPosition) = state.nextPosition - state.targetWindowRows := by
    split
    · rename_i some_
      rw [holds.positions, headD_positionsBefore _ some_]
    · omega
  have expected : expectedWindowStart state = state.nextPosition - state.targetWindowRows := by
    unfold expectedWindowStart horizonStart
    omega
  unfold windowIsValid
  rw [if_neg (by omega)]
  rw [front, if_neg (by omega), all_eq_true]
  intro i inside
  rw [beq_iff_eq, holds.positions, getElem?_positionsBefore (mem_range.mp inside)]

section

variable (holds : WindowHolds crossCtx record state)
include holds

omit [Inhabited α] in
theorem WindowHolds.congr {other : Int → Option α}
    (agree : ∀ pos < state.nextPosition, other pos = record pos) :
    WindowHolds crossCtx other state := by
  obtain ⟨contents, ring, recorded, linear⟩ := holds.contents
  refine { holds with contents := ⟨contents, ring, ?_, linear⟩ }
  rw [recorded, holds.positions]
  exact map_congr_left fun pos among => (agree pos (mem_positionsBefore.mp among).2).symm

theorem WindowHolds.materialized :
    ∃ contents flag, materializeTargetWindowFeatures state =
        { state with targetWindow := contents, targetWindowMaterialized := flag } ∧
      contents.length = state.targetWindowRows ∧
      contents.map some = state.targetWindowPos.map record ∧ RingHolds state contents := by
  obtain ⟨contents, ring, recorded, linear⟩ := holds.contents
  have length : contents.length = state.targetWindowRows := by
    have same := congrArg List.length recorded
    rwa [length_map, length_map, holds.positions, length_positionsBefore] at same
  obtain ⟨flag, copied⟩ := materialize_eq ring length
    linear
  exact ⟨contents, flag, copied, length, recorded, ring⟩

theorem materialize_holds :
    WindowHolds crossCtx record (materializeTargetWindowFeatures state) := by
  obtain ⟨contents, flag, copied, length, recorded, ring⟩ := holds.materialized
  rw [copied]
  exact
    { holds with contents := ⟨contents, ring, recorded, fun _ => rfl⟩ }

end

theorem clear_holds (shape : WindowShape crossCtx state)
    (after : state.sequenceStartPosition ≤ state.nextPosition) :
    WindowHolds crossCtx record (clearTargetFeatures state) where
  capacity := shape.capacity
  room := shape.room
  width := shape.width
  start := shape.start
  sized := shape.sized
  fromStart := after
  covered := le_refl state.nextPosition
  rows := by
    change 0 = min crossCtx (state.nextPosition - state.nextPosition).toNat
    omega
  positions := rfl
  contents := by
    have sized : state.targetWindowRing.length = state.crossCtx := by
      rw [shape.sized, shape.capacity]
    have ring := @ringResetRows_holds _ _ state [] sized (Nat.zero_le _)
    exact ⟨[], ring, rfl, fun _ => rfl⟩

theorem finishShift_holds (shape : WindowShape crossCtx state)
    (fromStart : state.sequenceStartPosition ≤ state.coverageStartPosition)
    (covered : state.coverageStartPosition ≤ state.nextPosition)
    (rows : state.targetWindowRows =
      min crossCtx (state.nextPosition - state.coverageStartPosition).toNat)
    (positions : state.targetWindowPos =
      positionsBefore state.nextPosition state.targetWindowRows)
    (recorded : state.targetWindow.map some = state.targetWindowPos.map record) :
    WindowHolds crossCtx record (finishShift state) := by
  have capacity := shape.capacity
  have sized : state.targetWindowRing.length = state.crossCtx := by rw [shape.sized, capacity]
  have length : state.targetWindow.length = state.targetWindowRows := by
    have same := congrArg List.length recorded
    rwa [length_map, length_map, positions, length_positionsBefore] at same
  have ring := ringResetRows_holds sized
    (show state.targetWindow.length ≤ state.targetWindowRing.length by omega)
  obtain ⟨written, place, filled, flag, frame⟩ :=
    ringResetRows_frame state state.targetWindow state.targetWindowRows
  rw [length, frame] at ring
  unfold finishShift recordWindowUpdate
  rw [frame]
  exact
    { capacity := capacity
      room := shape.room
      width := shape.width
      start := shape.start
      sized := ring.sized.1.trans capacity
      fromStart := fromStart
      covered := covered
      rows := rows
      positions := positions
      contents := ⟨state.targetWindow, ring, recorded, fun _ => rfl⟩ }

theorem placeShifted_holds (shape : WindowShape crossCtx state)
    (fromStart : state.sequenceStartPosition ≤ state.coverageStartPosition)
    (inCover : state.coverageStartPosition ≤ state.nextPosition - state.targetWindowRows)
    (fits : state.targetWindowRows ≤ crossCtx)
    (positions : state.targetWindowPos =
      positionsBefore state.nextPosition state.targetWindowRows)
    (recorded : state.targetWindow.map some = state.targetWindowPos.map record) :
    WindowHolds crossCtx record (placeShifted state) := by
  have capacity := shape.capacity
  unfold placeShifted
  split
  · exact clear_holds shape (by omega)
  · rename_i some_
    have front : state.targetWindowPos.headD 0 = state.nextPosition - state.targetWindowRows := by
      rw [positions, headD_positionsBefore _ (Nat.pos_of_ne_zero some_)]
    have expected : expectedWindowStart state =
        max state.coverageStartPosition (state.nextPosition - crossCtx) := by
      unfold expectedWindowStart horizonStart
      omega
    -- the window begins in what is covered and has at most as many rows as the ring
    rw [if_neg (by omega)]
    split
    · refine finishShift_holds ⟨capacity, shape.room, shape.width, shape.start, shape.sized⟩ ?_ ?_
        ?_ positions recorded
      · dsimp only
        omega
      · dsimp only
        omega
      · dsimp only
        omega
    · exact finishShift_holds shape fromStart (by omega) (by omega) positions recorded

/-! ## The calls -/

theorem replaceWindow_holds (record : Int → Option α) {newRows : List (Int × α)} {nRows : Nat}
    {coverage next : Int} (shape : WindowShape crossCtx state) (fewer : nRows ≤ newRows.length)
    (follows : (newRows.map Prod.fst).drop (newRows.length - nRows) = positionsBefore next nRows)
    (fromStart : state.sequenceStartPosition ≤ coverage) (inCover : coverage ≤ next - nRows)
    (all_ : coverage = next - nRows ∨ crossCtx ≤ nRows) :
    WindowHolds crossCtx (recordRows record newRows)
      (replaceWindow state newRows nRows coverage next) := by
  have capacity := shape.capacity
  generalize count_ : min nRows state.crossCtx = count
  have split := take_append_drop (newRows.length - count) newRows
  generalize replacement_ : newRows.drop (newRows.length - count) = replacement at split
  have length : replacement.length = count := by
    rw [← replacement_, length_drop]
    omega
  have positions : replacement.map Prod.fst = positionsBefore next count := by
    have later : newRows.length - count = newRows.length - nRows + (nRows - count) := by omega
    rw [← replacement_, map_drop, later, ← drop_drop, follows,
      drop_positionsBefore next (by omega)]
  have recorded : (replacement.map Prod.snd).map some =
      (replacement.map Prod.fst).map (recordRows record newRows) := by
    rw [← split, recordRows_append]
    exact map_recordRows (by rw [positions]; exact positionsBefore_nodup next count)
  have sizes : (replacement.map Prod.snd).length ≤
      (List.replicate state.crossCtx (default : α)).length := by
    rw [length_map, length_replicate]
    omega
  unfold replaceWindow recordWindowUpdate
  dsimp only
  rw [count_, replacement_]
  exact
    { capacity := capacity
      room := shape.room
      width := shape.width
      start := shape.start
      sized := by
        rw [length_writeBlock (by omega), length_replicate, capacity]
      fromStart := fromStart
      covered := by
        dsimp only
        omega
      rows := by
        dsimp only
        omega
      positions := positions
      contents := by
        refine ⟨replacement.map Prod.snd, ⟨RingBuffer.ofBlock _ _ sizes, rfl, ?_, ?_,
          RingBuffer.toVector_ofBlock sizes⟩, recorded, ?_⟩
        · change (replacement.map Prod.snd).length % (List.replicate state.crossCtx _).length = _
          rw [length_map, length_replicate, length]
        · exact length_replicate
        · intro none_
          have empty : count = 0 := none_.resolve_left Bool.false_ne_true
          rw [eq_nil_of_length_eq_zero (length.trans empty)]
          rfl }

theorem extendWindow_holds {appended : List (Int × α)} {next : Int}
    (holds : WindowHolds crossCtx record state) (some_ : appended ≠ [])
    (fewer : appended.length < crossCtx) (next_ : next = state.nextPosition + appended.length)
    (follows : appended.map Prod.fst = positionsBefore next appended.length) :
    WindowHolds crossCtx (recordRows record appended)
      (extendWindow state appended appended.length next) := by
  have capacity := holds.capacity
  have room := holds.room
  have rows := holds.rows
  have covered := holds.covered
  have count : 0 < appended.length := length_pos_iff.mpr some_
  obtain ⟨contents, ring, recorded, -⟩ := holds.contents
  have length : contents.length = state.targetWindowRows := by
    have same := congrArg List.length recorded
    rwa [length_map, length_map, holds.positions, length_positionsBefore] at same
  generalize keep_ : min state.targetWindowRows (state.crossCtx - appended.length) = keepOldRows
  have drops : contents.length + appended.length - state.crossCtx =
      state.targetWindowRows - keepOldRows := by omega
  have kept : state.targetWindowPos.drop (state.targetWindowPos.length - keepOldRows) =
      positionsBefore state.nextPosition keepOldRows := by
    rw [holds.positions, length_positionsBefore, drop_positionsBefore _ (by omega)]
  have positions : positionsBefore state.nextPosition keepOldRows ++ appended.map Prod.fst =
      positionsBefore next (keepOldRows + appended.length) := by
    rw [follows, next_, positionsBefore_append]
  have older : (contents.drop (state.targetWindowRows - keepOldRows)).map some =
      (positionsBefore state.nextPosition keepOldRows).map (recordRows record appended) := by
    rw [map_drop, recorded, holds.positions, ← map_drop,
      drop_positionsBefore _ (by omega)]
    refine map_congr_left fun pos among => (recordRows_of_notMem ?_).symm
    rw [mem_positionsBefore] at among
    rw [follows, mem_positionsBefore]
    omega
  have newer : (appended.map Prod.snd).map some =
      (appended.map Prod.fst).map (recordRows record appended) :=
    map_recordRows (by rw [follows]; exact positionsBefore_nodup _ _)
  have featuresSome : appended.map Prod.snd ≠ [] := fun none_ => some_ (map_eq_nil_iff.mp none_)
  have written := @ringAppendRows_holds _ _
    { state with targetWindowAppendFeatures := appended.map Prod.snd } contents
    (appended.map Prod.snd) (show 0 < state.crossCtx by omega) ring
  obtain ⟨cells, place, filled, frame⟩ := ringAppendRows_frame
    { state with targetWindowAppendFeatures := appended.map Prod.snd } featuresSome
  rw [frame, length_map, drops, drop_append_of_le_length (by omega)] at written
  rw [length_map] at frame
  unfold extendWindow recordWindowUpdate
  dsimp only
  rw [frame, keep_, kept, positions]
  exact
    { capacity := capacity
      room := room
      width := holds.width
      start := holds.start
      sized := written.sized.1.trans capacity
      fromStart := holds.fromStart
      covered := by
        dsimp only
        omega
      rows := by
        dsimp only
        omega
      positions := rfl
      contents := by
        refine ⟨_, written, ?_, ?_⟩
        · rw [map_append, older, newer, ← positions, map_append]
        · intro none_
          exact absurd (none_.resolve_left Bool.false_ne_true)
            (show keepOldRows + appended.length ≠ 0 by omega) }

theorem append_holds (holds : WindowHolds crossCtx record state) (features : FeatureView α)
    (seqId : Int) :
    (appendTargetFeatures state features seqId).1 = false ∧
        (appendTargetFeatures state features seqId).2 = state ∨
      (appendTargetFeatures state features seqId).1 = true ∧
        WindowHolds crossCtx (recordRows record (sequenceRows seqId features.rows))
          (appendTargetFeatures state features seqId).2 := by
  unfold appendTargetFeatures
  split
  · exact Or.inl ⟨rfl, rfl⟩
  split
  · exact Or.inl ⟨rfl, rfl⟩
  split
  · exact Or.inl ⟨rfl, rfl⟩
  rename_i newRows matching
  obtain ⟨rows, notBefore⟩ := matchingRows_eq matching
  dsimp only
  split
  · exact Or.inl ⟨rfl, rfl⟩
  rename_i some_
  obtain ⟨suffixIn, follows⟩ := suffixStart_spec some_
  split
  · exact Or.inl ⟨rfl, rfl⟩
  rw [← rows]
  rw [length_map] at suffixIn follows ⊢
  generalize next_ : (newRows.map Prod.fst).getLastD 0 + 1 = next at follows
  generalize start_ : suffixStart (newRows.map Prod.fst) = start at suffixIn follows
  have front : (newRows.map Prod.fst).getD start 0 = next - (newRows.length - start : Nat) := by
    have first := congrArg List.head? follows
    rw [List.head?_drop, List.head?_eq_getElem?, getElem?_positionsBefore (by omega)] at first
    rw [getD_eq_getElem?_getD, first]
    exact Int.add_zero _
  by_cases continues : start = 0 ∧ (newRows.map Prod.fst).headD 0 = state.nextPosition ∧
      windowIsValid state = true
  · have first : next - newRows.length = state.nextPosition := by
      rw [continues.1, Nat.sub_zero] at front
      rw [← continues.2.1, headD_eq_getD, front]
    rw [if_pos continues, drop_zero]
    rw [continues.1, drop_zero] at follows
    split
    · exact Or.inl ⟨rfl, rfl⟩
    split
    · rename_i whole
      have enough : crossCtx ≤ newRows.length := by
        rw [← holds.capacity]
        exact whole.resolve_left (not_not.mpr continues)
      split
      · exact Or.inl ⟨rfl, rfl⟩
      · have replaced := replaceWindow_holds record holds.toWindowShape (Nat.le_refl newRows.length)
          (by rw [Nat.sub_self]; exact follows) holds.fromStart
          (first.symm ▸ holds.covered) (Or.inr enough)
        exact Or.inr ⟨replaced.valid, replaced⟩
    · rename_i part
      have fewer : newRows.length < crossCtx := by
        rw [← holds.capacity]
        exact not_le.mp (not_or.mp part).2
      have extended := extendWindow_holds holds (fun none_ => some_ (by rw [none_]; rfl)) fewer
        (by omega) follows
      exact Or.inr ⟨extended.valid, extended⟩
  · have after : state.sequenceStartPosition ≤ (newRows.map Prod.fst).getD start 0 := by
      have place : start < (newRows.map Prod.fst).length := by rwa [length_map]
      rw [getD_eq_getElem?_getD, List.getElem?_eq_getElem place, getElem_map]
      exact notBefore _ (getElem_mem suffixIn)
    rw [if_neg continues]
    split
    · exact Or.inl ⟨rfl, rfl⟩
    rw [if_pos (Or.inl continues)]
    split
    · exact Or.inl ⟨rfl, rfl⟩
    · have replaced := replaceWindow_holds record holds.toWindowShape (Nat.sub_le newRows.length start)
        (by rw [Nat.sub_sub_self suffixIn.le]; exact follows) after front.le (Or.inl front)
      exact Or.inr ⟨replaced.valid, replaced⟩

def trimRecord (record : Int → Option α) (posBegin : Int) : Int → Option α :=
  fun pos => if pos < posBegin then record pos else none

theorem trimTargetFeatures_eq {posBegin : Int} {keepRows : Nat}
    (inside : ¬ (posBegin < state.sequenceStartPosition ∨ posBegin > state.nextPosition))
    (cuts : posBegin ≠ state.nextPosition)
    (some_ : ¬ (state.targetWindowRows = 0 ∨ state.targetWindowPos = []))
    (keep : lowerBound state.targetWindowPos posBegin = keepRows) (keeps : keepRows ≠ 0) :
    trimTargetFeatures state posBegin =
      finishShift
        { materializeTargetWindowFeatures state with
          targetWindow := resizeRows keepRows (materializeTargetWindowFeatures state).targetWindow
          targetWindowPos :=
            resizeRows keepRows (materializeTargetWindowFeatures state).targetWindowPos
          targetWindowAppendFeatures := []
          targetWindowRows := keepRows
          coverageStartPosition :=
            (resizeRows keepRows (materializeTargetWindowFeatures state).targetWindowPos).headD 0
          nextPosition := posBegin } := by
  unfold trimTargetFeatures
  rw [if_neg inside, if_neg cuts, if_neg some_]
  rw [keep, if_neg keeps]
  unfold finishShift ringResetRows
  dsimp only
  split
  · rfl
  · rfl

theorem trimTargetFeatures_holds (holds : WindowHolds crossCtx record state) {posBegin : Int}
    (fromStart : state.sequenceStartPosition ≤ posBegin) (before : posBegin ≤ state.nextPosition) :
    WindowHolds crossCtx (trimRecord record posBegin) (trimTargetFeatures state posBegin) := by
  have inside : ¬ (posBegin < state.sequenceStartPosition ∨ posBegin > state.nextPosition) := by
    omega
  have shape : WindowShape crossCtx { state with nextPosition := posBegin } :=
    ⟨holds.capacity, holds.room, holds.width, holds.start, holds.sized⟩
  by_cases end_ : posBegin = state.nextPosition
  · unfold trimTargetFeatures
    rw [if_neg inside, if_pos end_]
    exact holds.congr fun pos earlier => if_pos (end_ ▸ earlier)
  by_cases none_ : state.targetWindowRows = 0 ∨ state.targetWindowPos = []
  · unfold trimTargetFeatures
    rw [if_neg inside, if_neg end_, if_pos none_]
    exact clear_holds shape fromStart
  generalize keep : lowerBound state.targetWindowPos posBegin = keepRows
  by_cases nothing : keepRows = 0
  · unfold trimTargetFeatures
    rw [if_neg inside, if_neg end_, if_neg none_]
    rw [keep, if_pos nothing]
    exact clear_holds shape fromStart
  · obtain ⟨contents, flag, copied, length, recorded, -⟩ := holds.materialized
    have count : (keepRows : Int) = state.targetWindowRows - (state.nextPosition - posBegin) := by
      rw [← keep, holds.positions, lowerBound_positionsBefore before] at nothing ⊢
      omega
    have rows := holds.rows
    have fromCover := holds.fromStart
    have taken : state.targetWindowPos.take keepRows = positionsBefore posBegin keepRows := by
      rw [holds.positions, take_positionsBefore _ (by omega)]
      congr 1
      omega
    have positions : resizeRows keepRows state.targetWindowPos = positionsBefore posBegin keepRows := by
      rw [← taken, resizeRows_of_le]
      rw [holds.positions, length_positionsBefore]
      omega
    have front : (positionsBefore posBegin keepRows).headD 0 = posBegin - keepRows :=
      headD_positionsBefore _ (Nat.pos_of_ne_zero nothing)
    rw [trimTargetFeatures_eq inside end_ none_ keep nothing, copied]
    rw [positions]
    refine finishShift_holds ⟨shape.capacity, shape.room, shape.width, shape.start, shape.sized⟩
      ?_ ?_ ?_ rfl ?_
    · dsimp only
      omega
    · dsimp only
      omega
    · dsimp only
      omega
    · dsimp only
      rw [resizeRows_of_le (by omega), map_take, recorded, ← map_take, taken]
      exact map_congr_left fun pos among => (if_pos (mem_positionsBefore.mp among).2).symm

/-- The record after the positions to discard are out and the later ones have moved forward. -/
def shiftRecord (record : Int → Option α) (kvKeep kvDiscard : Int) : Int → Option α :=
  fun pos => record (if pos < kvKeep then pos else pos + kvDiscard)

omit [Inhabited α] in
theorem shiftRows_spec {contents : List α} {positions : List Int} {kvPast : Int}
    (kvKeep kvDiscard : Int) (length : contents.length = positions.length)
    (before : ∀ pos ∈ positions, pos < kvPast)
    (recorded : contents.map some = positions.map record) :
    (((positions.zip contents).filterMap
          (shiftRow kvKeep (kvKeep + kvDiscard) kvDiscard kvPast)).map Prod.fst =
        positions.filterMap (shiftPosition kvKeep kvDiscard kvPast)) ∧
      ((positions.zip contents).filterMap
          (shiftRow kvKeep (kvKeep + kvDiscard) kvDiscard kvPast)).map (some ∘ Prod.snd) =
        ((positions.zip contents).filterMap
          (shiftRow kvKeep (kvKeep + kvDiscard) kvDiscard kvPast)).map
            (shiftRecord record kvKeep kvDiscard ∘ Prod.fst) := by
  induction positions generalizing contents with
  | nil => exact ⟨rfl, rfl⟩
  | cons pos positions ih =>
    cases contents with
    | nil => exact absurd length (Nat.succ_ne_zero _).symm
    | cons row contents =>
      rw [map_cons, map_cons, List.cons.injEq] at recorded
      rw [forall_mem_cons] at before
      obtain ⟨positions_, rows_⟩ := ih (Nat.succ.inj length) before.2 recorded.2
      rw [zip_cons_cons, filterMap_cons, filterMap_cons, shiftRow, shiftPosition]
      by_cases discarded : pos ≥ kvKeep ∧ pos < kvKeep + kvDiscard
      · rw [if_pos discarded, if_pos discarded]
        exact ⟨positions_, rows_⟩
      · rw [if_neg discarded, if_neg discarded]
        by_cases later : pos ≥ kvKeep + kvDiscard ∧ pos < kvPast
        · have same : shiftRecord record kvKeep kvDiscard (pos - kvDiscard) = record pos := by
            rw [shiftRecord, if_neg (by omega), Int.sub_add_cancel]
          rw [if_pos later, if_pos later]
          rw [map_cons, map_cons, map_cons, positions_, rows_]
          refine ⟨rfl, ?_⟩
          rw [Function.comp_apply, Function.comp_apply, same, recorded.1]
        · have same : shiftRecord record kvKeep kvDiscard pos = record pos := by
            rw [shiftRecord, if_pos (by omega)]
          rw [if_neg later, if_neg later]
          rw [map_cons, map_cons, map_cons, positions_, rows_]
          refine ⟨rfl, ?_⟩
          rw [Function.comp_apply, Function.comp_apply, same, recorded.1]

theorem shiftBoundary_le {kvKeep kvDiscard kvPast boundary sequenceStart : Int} {count : Nat}
    (discards : 0 < kvDiscard) (fromStart : sequenceStart ≤ kvKeep)
    (inside : kvKeep + kvDiscard ≤ kvPast) (start : sequenceStart ≤ boundary)
    (before : boundary ≤ kvPast - count) :
    sequenceStart ≤ shiftBoundary kvKeep (kvKeep + kvDiscard) kvDiscard boundary ∧
      shiftBoundary kvKeep (kvKeep + kvDiscard) kvDiscard boundary ≤
        kvPast - kvDiscard - keptCount kvKeep kvDiscard kvPast count := by
  unfold shiftBoundary keptCount
  split
  · omega
  split
  · omega
  · omega

theorem contextShift_holds (holds : WindowHolds crossCtx record state)
    {kvKeep kvDiscard kvPast : Int} (discards : 0 < kvDiscard)
    (fromStart : state.sequenceStartPosition ≤ kvKeep) (inside : kvKeep + kvDiscard ≤ kvPast) :
    WindowHolds crossCtx (shiftRecord record kvKeep kvDiscard)
      (contextShift state kvKeep kvDiscard kvPast) := by
  unfold contextShift
  rw [if_neg (by omega)]
  dsimp only
  generalize current_ : (if state.nextPosition ≠ kvPast then
    clearTargetFeatures { state with nextPosition := kvPast } else state) = current
  have began : WindowHolds crossCtx record current ∧ current.nextPosition = kvPast ∧
      current.sequenceStartPosition = state.sequenceStartPosition := by
    rw [← current_]
    split
    · refine ⟨clear_holds ⟨holds.capacity, holds.room, holds.width, holds.start, holds.sized⟩ ?_,
        rfl, rfl⟩
      dsimp only
      omega
    · rename_i same
      exact ⟨holds, not_not.mp same, rfl⟩
  obtain ⟨holds, next, start⟩ := began
  split
  · refine clear_holds ⟨holds.capacity, holds.room, holds.width, holds.start, holds.sized⟩ ?_
    dsimp only
    omega
  · obtain ⟨contents, flag, copied, length, recorded, -⟩ := holds.materialized
    have rows := holds.rows
    have positions := holds.positions
    rw [next] at positions
    have sameLength : contents.length = current.targetWindowPos.length := by
      rw [positions, length_positionsBefore, length]
    have before : ∀ pos ∈ current.targetWindowPos, pos < kvPast := by
      intro pos among
      rw [positions, mem_positionsBefore] at among
      exact among.2
    have whole : (current.targetWindowPos.zip contents).take current.targetWindowRows =
        current.targetWindowPos.zip contents := by
      refine take_of_length_le ?_
      rw [length_zip, length]
      exact min_le_right _ _
    obtain ⟨shifted, kept⟩ := shiftRows_spec kvKeep kvDiscard sameLength before recorded
    rw [copied]
    rw [whole]
    generalize (current.targetWindowPos.zip contents).filterMap
      (shiftRow kvKeep (kvKeep + kvDiscard) kvDiscard kvPast) = shiftedRows at shifted kept
    rw [positions, shift_positionsBefore discards inside] at shifted
    have count : shiftedRows.length =
        keptCount kvKeep kvDiscard kvPast current.targetWindowRows := by
      have same := congrArg List.length shifted
      rwa [length_map, length_positionsBefore] at same
    have boundary := @shiftBoundary_le kvKeep kvDiscard kvPast current.coverageStartPosition
      current.sequenceStartPosition current.targetWindowRows discards (by omega) inside
      holds.fromStart (by omega)
    refine placeShifted_holds
      ⟨holds.capacity, holds.room, holds.width, holds.start, holds.sized⟩ boundary.1 ?_ ?_ ?_ ?_
    · rw [count]
      exact boundary.2
    · dsimp only
      rw [count]
      unfold keptCount
      omega
    · rw [count]
      exact shifted
    · rw [map_map, map_map]
      exact kept

end Holds

/-! ## Runs -/

structure EmptyWindow (α : Type) extends DflashState α where
  room : 0 < crossCtx
  width : 0 < nTargetFeatures
  notNegative : 0 ≤ sequenceStartPosition
  sized : targetWindowRing.length = crossCtx
  ringStart : targetWindowRingWritePos = 0
  noRows : targetWindowRows = 0
  noPositions : targetWindowPos = []
  noWindow : targetWindow = []
  coverage : coverageStartPosition = sequenceStartPosition
  next : nextPosition = sequenceStartPosition

def freshState (crossCtx nTargetFeatures : Nat) : DflashState α where
  crossCtx := max 1 crossCtx
  nTargetFeatures := nTargetFeatures
  targetWindow := []
  targetWindowPos := []
  targetWindowRing := List.replicate (max 1 crossCtx) default
  targetWindowAppendFeatures := []
  targetWindowRows := 0
  targetWindowRingWritePos := 0
  targetWindowRingFilled := 0
  targetWindowVersion := 0
  targetWindowKeepRows := 0
  targetWindowAppendRows := 0
  targetWindowReplace := false
  targetWindowMaterialized := false
  sequenceStartPosition := 0
  coverageStartPosition := 0
  nextPosition := 0
  lastTargetPos := -1

def EmptyWindow.fresh (crossCtx : Nat) {nTargetFeatures : Nat} (width : 0 < nTargetFeatures) :
    EmptyWindow α where
  toDflashState := freshState crossCtx nTargetFeatures
  room := lt_of_lt_of_le one_pos (le_max_left 1 crossCtx)
  width := width
  notNegative := le_refl 0
  sized := length_replicate
  ringStart := rfl
  noRows := rfl
  noPositions := rfl
  noWindow := rfl
  coverage := rfl
  next := rfl

omit [Inhabited α] in
theorem EmptyWindow.holds (start : EmptyWindow α) (record : Int → Option α) :
    WindowHolds start.crossCtx record start.toDflashState where
  capacity := rfl
  room := start.room
  width := start.width
  start := start.notNegative
  sized := start.sized
  fromStart := start.coverage.ge
  covered := by rw [start.coverage, start.next]
  rows := by
    rw [start.noRows, start.coverage, start.next]
    omega
  positions := by
    rw [start.noRows, start.noPositions]
    rfl
  contents := by
    refine ⟨[], ⟨RingBuffer.ofBlock start.targetWindowRing [] (Nat.zero_le _), ?_, ?_, start.sized,
      rfl⟩, ?_, fun _ => start.noWindow⟩
    · exact writeBlock_nil _ _
    · rw [start.ringStart]
      exact Nat.zero_mod _
    · rw [start.noPositions]
      rfl

inductive DflashCall (α : Type)
  | append (features : FeatureView α) (seqId : Int)
  | trim (posBegin : Int)
  | clear
  | shift (kvKeep kvDiscard kvPast : Int)
  | materialize

def runCall (state : DflashState α) : DflashCall α → DflashState α
  | .append features seqId => (appendTargetFeatures state features seqId).2
  | .trim posBegin => trimTargetFeatures state posBegin
  | .clear => clearTargetFeatures state
  | .shift kvKeep kvDiscard kvPast => contextShift state kvKeep kvDiscard kvPast
  | .materialize => materializeTargetWindowFeatures state

/-- What the call does to the tokens: rows are appended when the call says so, and a trim or a
shift that is out of bounds is none. -/
def recordCall (state : DflashState α) (record : Int → Option α) :
    DflashCall α → Int → Option α
  | .append features seqId =>
    if (appendTargetFeatures state features seqId).1 = true then
      recordRows record (sequenceRows seqId features.rows)
    else record
  | .trim posBegin =>
    if state.sequenceStartPosition ≤ posBegin ∧ posBegin ≤ state.nextPosition then
      trimRecord record posBegin
    else record
  | .clear => record
  | .shift kvKeep kvDiscard kvPast =>
    if 0 < kvDiscard ∧ state.sequenceStartPosition ≤ kvKeep ∧ kvKeep + kvDiscard ≤ kvPast then
      shiftRecord record kvKeep kvDiscard
    else record
  | .materialize => record

def trackCall (tracked : DflashState α × (Int → Option α)) (call : DflashCall α) :
    DflashState α × (Int → Option α) :=
  (runCall tracked.1 call, recordCall tracked.1 tracked.2 call)

theorem runCall_holds {crossCtx : Nat} {record : Int → Option α} {state : DflashState α}
    (holds : WindowHolds crossCtx record state) (call : DflashCall α) :
    WindowHolds crossCtx (recordCall state record call) (runCall state call) := by
  cases call with
  | append features seqId =>
    rw [recordCall, runCall]
    obtain ⟨refused, same⟩ | ⟨accepted, next⟩ := append_holds holds features seqId
    · rw [if_neg (by rw [refused]; exact Bool.false_ne_true), same]
      exact holds
    · rw [if_pos accepted]
      exact next
  | trim posBegin =>
    rw [recordCall, runCall]
    split
    · rename_i inside
      exact trimTargetFeatures_holds holds inside.1 inside.2
    · unfold trimTargetFeatures
      rw [if_pos (by omega)]
      exact holds
  | clear => exact clear_holds holds.toWindowShape (holds.fromStart.trans holds.covered)
  | shift kvKeep kvDiscard kvPast =>
    rw [recordCall, runCall]
    split
    · rename_i inside
      exact contextShift_holds holds inside.1 inside.2.1 inside.2.2
    · unfold contextShift
      rw [if_pos (by omega)]
      exact holds
  | materialize => exact materialize_holds holds

theorem trackCalls_holds {crossCtx : Nat} {record : Int → Option α} {state : DflashState α}
    (holds : WindowHolds crossCtx record state) (calls : List (DflashCall α)) :
    WindowHolds crossCtx (calls.foldl trackCall (state, record)).2
      (calls.foldl trackCall (state, record)).1 := by
  induction calls generalizing state record with
  | nil => exact holds
  | cons call calls ih => exact ih (runCall_holds holds call)

end Window

end LlamaCpp.Speculative
