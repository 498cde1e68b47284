import LlamaCpp.Speculative.DflashWindow

/-!
# Positions of the dflash window

The positions of a window follow on each other up to the next position.  The last part of what
is appended does, a trim cuts such positions off, and so they stay when a context shift takes
some out and moves the later ones forward.
-/

set_option autoImplicit false

namespace LlamaCpp.Speculative

open List

def positionsBefore (next : Int) (count : Nat) : List Int :=
  (List.range count).map fun (i : Nat) => next - count + i

@[simp] theorem length_positionsBefore (next : Int) (count : Nat) :
    (positionsBefore next count).length = count := by
  simp [positionsBefore]

variable {next : Int} {count : Nat}

theorem getElem?_positionsBefore {i : Nat} (inside : i < count) :
    (positionsBefore next count)[i]? = some (next - count + i) := by
  rw [positionsBefore, List.getElem?_map, List.getElem?_range inside]
  rfl

theorem mem_positionsBefore {pos : Int} :
    pos ∈ positionsBefore next count ↔ next - count ≤ pos ∧ pos < next := by
  rw [positionsBefore, mem_map]
  constructor
  · intro ⟨i, inside, at_⟩
    rw [mem_range] at inside
    omega
  · intro ⟨from_, before⟩
    exact ⟨(pos - (next - count)).toNat, mem_range.mpr (by omega), by omega⟩

theorem positionsBefore_append (next : Int) (count more : Nat) :
    positionsBefore next count ++ positionsBefore (next + more) more =
      positionsBefore (next + more) (count + more) := by
  rw [positionsBefore, positionsBefore, positionsBefore, range_add, map_append,
    map_map]
  congr 1
  · refine map_congr_left fun i _ => ?_
    omega
  · refine map_congr_left fun i _ => ?_
    simp only [Function.comp_apply]
    omega

theorem positionsBefore_split (next : Int) {last : Nat} (fewer : last ≤ count) :
    positionsBefore next count =
      positionsBefore (next - last) (count - last) ++ positionsBefore next last := by
  have joined := positionsBefore_append (next - last) (count - last) last
  rw [Int.sub_add_cancel, Nat.sub_add_cancel fewer] at joined
  exact joined.symm

theorem drop_positionsBefore (next : Int) {last : Nat} (fewer : last ≤ count) :
    (positionsBefore next count).drop (count - last) = positionsBefore next last := by
  rw [positionsBefore_split next fewer, drop_left' (length_positionsBefore _ _)]

theorem take_positionsBefore (next : Int) {first : Nat} (fewer : first ≤ count) :
    (positionsBefore next count).take first =
      positionsBefore (next - (count - first : Nat)) first := by
  have kept : count - (count - first) = first := by omega
  rw [positionsBefore_split next (Nat.sub_le count first), kept,
    take_left' (length_positionsBefore _ _)]

theorem positionsBefore_cons (next : Int) (count : Nat) :
    positionsBefore next (count + 1) = (next - count - 1) :: positionsBefore next count := by
  have split := positionsBefore_split next (Nat.le_succ count)
  have one : positionsBefore (next - count) (count + 1 - count) = [next - count - 1] := by
    simp [positionsBefore]
  rw [split, one]
  rfl

theorem headD_positionsBefore (next : Int) (some_ : 0 < count) :
    (positionsBefore next count).headD 0 = next - count := by
  cases count with
  | zero => exact absurd some_ (Nat.lt_irrefl 0)
  | succ count =>
    rw [positionsBefore_cons, headD_cons]
    omega

theorem positionsBefore_nodup (next : Int) (count : Nat) : (positionsBefore next count).Nodup := by
  induction count with
  | zero => exact nodup_nil
  | succ count ih =>
    rw [positionsBefore_cons, nodup_cons, mem_positionsBefore]
    exact ⟨by omega, ih⟩

theorem lowerBound_positionsBefore {pos : Int} (before : pos ≤ next) :
    lowerBound (positionsBefore next count) pos = (count - (next - pos)).toNat := by
  induction count with
  | zero =>
    simp only [lowerBound, positionsBefore, range_zero, map_nil, takeWhile_nil,
      length_nil]
    omega
  | succ count ih =>
    rw [lowerBound, positionsBefore_cons, takeWhile_cons]
    by_cases below : next - count - 1 < pos
    · rw [if_pos (by simpa using below), length_cons]
      rw [lowerBound] at ih
      omega
    · rw [if_neg (by simpa using below), length_nil]
      omega

theorem suffixStartFrom_spec {rest seen : List Int} {start : Nat} {previous : Int}
    (inside : start < seen.length)
    (follows : seen.drop start = positionsBefore (previous + 1) (seen.length - start)) :
    suffixStartFrom start seen.length previous rest < (seen ++ rest).length ∧
      (seen ++ rest).drop (suffixStartFrom start seen.length previous rest) =
        positionsBefore (rest.getLastD previous + 1)
          ((seen ++ rest).length - suffixStartFrom start seen.length previous rest) := by
  induction rest generalizing seen start previous with
  | nil =>
    rw [append_nil]
    exact ⟨inside, follows⟩
  | cons pos rest ih =>
    have grown : (seen ++ [pos]).length = seen.length + 1 := length_append
    have all_ : seen ++ pos :: rest = seen ++ [pos] ++ rest := by simp
    rw [suffixStartFrom, ← grown, all_, getLastD_cons]
    by_cases breaks : previous = int32Max ∨ pos ≠ previous + 1
    · rw [if_pos breaks]
      apply ih
      · omega
      · simp [positionsBefore]
    · rw [if_neg breaks]
      rw [not_or, not_not] at breaks
      apply ih
      · omega
      · rw [drop_append_of_le_length inside.le, follows, breaks.2]
        have joined := positionsBefore_append (previous + 1) (seen.length - start) 1
        have more : seen.length + 1 - start = seen.length - start + 1 := by omega
        rw [Int.natCast_one] at joined
        rw [length_append, length_singleton, more, ← joined]
        simp [positionsBefore]

theorem suffixStart_spec {positions : List Int} (some_ : positions ≠ []) :
    suffixStart positions < positions.length ∧
      positions.drop (suffixStart positions) =
        positionsBefore (positions.getLastD 0 + 1) (positions.length - suffixStart positions) := by
  cases positions with
  | nil => exact absurd rfl some_
  | cons first rest =>
    rw [getLastD_cons]
    exact @suffixStartFrom_spec rest [first] 0 first (by simp) (by simp [positionsBefore])

def shiftPosition (kvKeep kvDiscard kvPast pos : Int) : Option Int :=
  if pos ≥ kvKeep ∧ pos < kvKeep + kvDiscard then none
  else if pos ≥ kvKeep + kvDiscard ∧ pos < kvPast then some (pos - kvDiscard)
  else some pos

def keptCount (kvKeep kvDiscard kvPast : Int) (count : Nat) : Nat :=
  min count (kvPast - kvKeep - kvDiscard).toNat + (count - (kvPast - kvKeep).toNat)

theorem shift_positionsBefore {kvKeep kvDiscard kvPast : Int} (discards : 0 < kvDiscard)
    (inside : kvKeep + kvDiscard ≤ kvPast) (count : Nat) :
    (positionsBefore kvPast count).filterMap (shiftPosition kvKeep kvDiscard kvPast) =
      positionsBefore (kvPast - kvDiscard) (keptCount kvKeep kvDiscard kvPast count) := by
  induction count with
  | zero => simp [positionsBefore, keptCount]
  | succ count ih =>
    rw [positionsBefore_cons, filterMap_cons, ih, shiftPosition]
    by_cases discarded : kvPast - count - 1 ≥ kvKeep ∧ kvPast - count - 1 < kvKeep + kvDiscard
    · have same : keptCount kvKeep kvDiscard kvPast (count + 1) =
          keptCount kvKeep kvDiscard kvPast count := by
        unfold keptCount
        omega
      rw [if_pos discarded, same]
    · have more : keptCount kvKeep kvDiscard kvPast (count + 1) =
          keptCount kvKeep kvDiscard kvPast count + 1 := by
        unfold keptCount
        omega
      rw [if_neg discarded, more, positionsBefore_cons]
      by_cases later : kvPast - count - 1 ≥ kvKeep + kvDiscard ∧ kvPast - count - 1 < kvPast
      · have all_ : keptCount kvKeep kvDiscard kvPast count = count := by
          unfold keptCount
          omega
        rw [if_pos later]
        dsimp only
        congr 1
        omega
      · have moved : (keptCount kvKeep kvDiscard kvPast count : Int) = count - kvDiscard := by
          unfold keptCount
          omega
        rw [if_neg later]
        dsimp only
        congr 1
        omega

end LlamaCpp.Speculative
