import Mathlib.Data.List.Perm.Basic
import Mathlib.Algebra.GroupWithZero.Nat

/-!
# Distributing entries over buckets

Buckets lie one after another in an array, each as long as the number of entries it gets,
and every entry is written to the next free slot of its bucket.  No two writes meet, and
afterwards each bucket holds its entries in the order of the input.  The bucket sizes come
from a histogram, and the buckets may then be reordered one at a time.
-/

set_option autoImplicit false

namespace LlamaCpp.Lib

open List

variable {α : Type}

/-- How often each number below `size` occurs. -/
def histogram (size : Nat) (numbers : List Nat) : List Nat :=
  numbers.foldl (fun counts number => counts.modify number (· + 1)) (List.replicate size 0)

theorem histogram_getElem? {size number : Nat} (below : number < size) (numbers : List Nat) :
    (histogram size numbers)[number]? = some (numbers.count number) := by
  suffices grown : ∀ (counts : List Nat) (before : Nat), counts[number]? = some before →
      (numbers.foldl (fun counts number => counts.modify number (· + 1)) counts)[number]? =
        some (before + numbers.count number) by
    simpa [histogram] using grown (List.replicate size 0) 0 (by simp [below])
  induction numbers with
  | nil => intro counts before found; simpa using found
  | cons first numbers ih =>
    intro counts before found
    rw [foldl_cons]
    by_cases same : first = number
    · subst same
      rw [ih _ (before + 1) (by simp [found]), count_cons_self]
      congr 1
      omega
    · rw [ih _ before (by simp [found, same]),
        count_cons_of_ne same]

def offsets : Nat → List Nat → List Nat
  | _, [] => []
  | start, size :: sizes => start :: offsets (start + size) sizes

structure Slots (α : Type) where
  cells : List α
  nexts : List Nat

def Slots.put (slots : Slots α) (bucket : Nat) (entry : α) : Slots α :=
  match slots.nexts[bucket]? with
  | some place =>
    { cells := slots.cells.set place entry, nexts := slots.nexts.set bucket (place + 1) }
  | none => slots

def distribute (bucketOf : α → Option Nat) (slots : Slots α) (entries : List α) : Slots α :=
  entries.foldl (fun slots entry =>
    match bucketOf entry with
    | some bucket => slots.put bucket entry
    | none => slots) slots

abbrev Group (α : Type) := List α × List α

def groupCells (groups : List (Group α)) : List α :=
  groups.flatMap fun group => group.1 ++ group.2

def groupNexts : Nat → List (Group α) → List Nat
  | _, [] => []
  | start, group :: groups =>
    (start + group.1.length) :: groupNexts (start + group.1.length + group.2.length) groups

def groupSlots (groups : List (Group α)) : Slots α :=
  { cells := groupCells groups, nexts := groupNexts 0 groups }

variable {groups : List (Group α)} {bucket : Nat} {bucketOf : α → Option Nat} {entry : α}
  {entries : List α} {sizes : List Nat} {cells : List α}

theorem groups_put (entry : α) {filled rest : List α} {old : α} (start : Nat)
    (found : groups[bucket]? = some (filled, old :: rest)) :
    ∃ place, (groupNexts start groups)[bucket]? = some (start + place) ∧
      groupCells (groups.set bucket (filled ++ [entry], rest)) =
        (groupCells groups).set place entry ∧
      groupNexts start (groups.set bucket (filled ++ [entry], rest)) =
        (groupNexts start groups).set bucket (start + place + 1) := by
  induction groups generalizing bucket start with
  | nil => simp at found
  | cons group groups ih =>
    cases bucket with
    | zero =>
      simp only [List.getElem?_cons_zero, Option.some.injEq] at found
      subst found
      refine ⟨filled.length, by simp [groupNexts], by simp [groupCells], ?_⟩
      have after : start + (filled.length + 1) + rest.length =
          start + filled.length + (rest.length + 1) := by omega
      simp [groupNexts, after, add_assoc]
    | succ bucket =>
      obtain ⟨place, next, cells, nexts⟩ :=
        ih (start + group.1.length + group.2.length) found
      refine ⟨group.1.length + group.2.length + place, ?_, ?_, ?_⟩
      · rw [groupNexts, List.getElem?_cons_succ, next]
        simp [add_assoc]
      · simp only [set_cons_succ, groupCells, flatMap_cons] at cells ⊢
        rw [cells, set_append_right _ _ (by simp)]
        simp
      · have shifted : start + group.1.length + group.2.length + place + 1 =
            start + (group.1.length + group.2.length + place) + 1 := by omega
        rw [set_cons_succ, groupNexts, nexts, groupNexts, set_cons_succ, shifted]

theorem put_groupSlots (entry : α) {filled rest : List α} {old : α}
    (found : groups[bucket]? = some (filled, old :: rest)) : (groupSlots groups).put bucket entry =
      groupSlots (groups.set bucket (filled ++ [entry], rest)) := by
  obtain ⟨place, next, cells, nexts⟩ := groups_put entry 0 found
  simp [Slots.put, groupSlots, next, cells, nexts]

def inBucket (bucketOf : α → Option Nat) (entries : List α) (bucket : Nat) : List α :=
  entries.filter fun entry => decide (bucketOf entry = some bucket)

theorem buckets_perm (bucketOf : α → Option Nat) (entries : List α) (bound : Nat) :
    ((List.range bound).flatMap (inBucket bucketOf entries)).Perm
      (entries.filter fun entry => (bucketOf entry).any fun bucket => decide (bucket < bound)) := by
  induction bound with
  | zero => simp
  | succ bound ih =>
    rw [range_succ, flatMap_append, flatMap_singleton]
    have parts := filter_append_perm
      (fun entry => (bucketOf entry).any fun bucket => decide (bucket < bound))
      (entries.filter fun entry =>
        (bucketOf entry).any fun bucket => decide (bucket < bound + 1))
    rw [filter_filter, filter_filter] at parts
    have below : (entries.filter fun entry =>
        ((bucketOf entry).any fun bucket => decide (bucket < bound)) &&
          (bucketOf entry).any fun bucket => decide (bucket < bound + 1)) =
        entries.filter fun entry =>
          (bucketOf entry).any fun bucket => decide (bucket < bound) := by
      refine filter_congr fun entry _ => ?_
      cases bucketOf entry <;> simp
      omega
    have last : (entries.filter fun entry =>
        (!(bucketOf entry).any fun bucket => decide (bucket < bound)) &&
          (bucketOf entry).any fun bucket => decide (bucket < bound + 1)) =
        inBucket bucketOf entries bound := by
      refine filter_congr fun entry _ => ?_
      cases bucketOf entry with
      | none => simp
      | some bucket =>
        by_cases same : bucket = bound
        · simp [same]
        · simp [same]
          omega
    rw [below, last] at parts
    exact (ih.append_right _).trans parts

def RoomFor (bucketOf : α → Option Nat) (groups : List (Group α)) (entries : List α) : Prop :=
  (∀ entry ∈ entries, ∀ bucket, bucketOf entry = some bucket → bucket < groups.length) ∧
    ∀ (bucket : Nat) (group : Group α), groups[bucket]? = some group →
      group.2.length = (inBucket bucketOf entries bucket).length

theorem inBucket_cons_same (goes : bucketOf entry = some bucket) (entries : List α) :
    inBucket bucketOf (entry :: entries) bucket = entry :: inBucket bucketOf entries bucket := by
  simp [inBucket, goes]

theorem inBucket_cons_other (elsewhere : bucketOf entry ≠ some bucket) (entries : List α) :
    inBucket bucketOf (entry :: entries) bucket = inBucket bucketOf entries bucket := by
  simp [inBucket, elsewhere]

theorem RoomFor.next (room : RoomFor bucketOf groups (entry :: entries))
    (goes : bucketOf entry = some bucket) :
    ∃ filled old rest, groups[bucket]? = some (filled, old :: rest) ∧
      RoomFor bucketOf (groups.set bucket (filled ++ [entry], rest)) entries := by
  obtain ⟨inside, sizes⟩ := room
  have within := inside entry mem_cons_self bucket goes
  obtain ⟨group, found⟩ : ∃ group, groups[bucket]? = some group :=
    ⟨groups[bucket], List.getElem?_eq_getElem within⟩
  obtain ⟨filled, free⟩ := group
  have size := sizes bucket _ found
  rw [inBucket_cons_same goes] at size
  cases free with
  | nil => simp at size
  | cons old rest =>
    refine ⟨filled, old, rest, found, ?_, ?_⟩
    · intro later member other goesThere
      simpa using inside later (mem_cons_of_mem _ member) other goesThere
    · intro other group isThere
      rw [List.getElem?_set] at isThere
      split at isThere
      case isTrue same =>
        subst same
        rw [Option.some.injEq] at isThere
        subst isThere
        simpa using size
      case isFalse different =>
        have elsewhere : bucketOf entry ≠ some other := by simpa [goes] using different
        rw [← inBucket_cons_other elsewhere]
        exact sizes other group isThere

theorem RoomFor.skip (room : RoomFor bucketOf groups (entry :: entries))
    (nowhere : bucketOf entry = none) : RoomFor bucketOf groups entries := by
  refine ⟨fun later member => room.1 later (mem_cons_of_mem _ member), ?_⟩
  intro bucket group found
  have size := room.2 bucket group found
  rwa [inBucket_cons_other (by simp [nowhere])] at size

theorem distribute_groups (room : RoomFor bucketOf groups entries) :
    distribute bucketOf (groupSlots groups) entries =
      groupSlots (groups.mapIdx fun bucket group =>
        (group.1 ++ inBucket bucketOf entries bucket, [])) := by
  induction entries generalizing groups with
  | nil =>
    have same : (groups.mapIdx fun bucket group =>
        (group.1 ++ inBucket bucketOf [] bucket, ([] : List α))) = groups := by
      refine ext_getElem? fun bucket => ?_
      rw [List.getElem?_mapIdx]
      cases found : groups[bucket]? with
      | none => rfl
      | some group =>
        have empty : group.2 = [] := by
          simpa [inBucket] using room.2 bucket group found
        simp [inBucket, Prod.ext_iff, empty]
    rw [same]
    rfl
  | cons entry entries ih =>
    cases goes : bucketOf entry with
    | none =>
      have others : inBucket bucketOf (entry :: entries) = inBucket bucketOf entries := by
        funext bucket
        exact inBucket_cons_other (by simp [goes]) entries
      rw [others, ← ih (room.skip goes)]
      simp [distribute, goes]
    | some bucket =>
      obtain ⟨filled, old, rest, found, roomRest⟩ := room.next goes
      have step : distribute bucketOf (groupSlots groups) (entry :: entries) =
          distribute bucketOf (groupSlots (groups.set bucket (filled ++ [entry], rest)))
            entries := by
        rw [← put_groupSlots entry found]
        simp [distribute, goes]
      rw [step, ih roomRest]
      congr 1
      refine ext_getElem? fun other => ?_
      rw [List.getElem?_mapIdx, List.getElem?_mapIdx, List.getElem?_set]
      split
      case isTrue same =>
        subst same
        have within := (List.getElem?_eq_some_iff.mp found).1
        rw [if_pos within, found]
        simp [inBucket_cons_same goes]
      case isFalse different =>
        rw [inBucket_cons_other (by simpa [goes] using different)]

def freshGroups : List Nat → List α → List (Group α)
  | [], _ => []
  | size :: sizes, cells => ([], cells.take size) :: freshGroups sizes (cells.drop size)

theorem groupSlots_fresh (enough : cells.length = sizes.sum) :
    groupSlots (freshGroups sizes cells) = { cells := cells, nexts := offsets 0 sizes } := by
  have split : ∀ start, groupCells (freshGroups sizes cells) = cells ∧
      groupNexts start (freshGroups sizes cells) = offsets start sizes := by
    induction sizes generalizing cells with
    | nil =>
      intro start
      simp only [sum_nil, length_eq_zero_iff] at enough
      exact ⟨by simp [freshGroups, groupCells, enough], rfl⟩
    | cons size sizes ih =>
      intro start
      rw [sum_cons] at enough
      have rest : (cells.drop size).length = sizes.sum := by
        rw [length_drop]
        omega
      obtain ⟨same, nexts⟩ := ih rest (start + size)
      constructor
      · simpa [freshGroups, groupCells] using congrArg (cells.take size ++ ·) same
      · have long : min size cells.length = size := by omega
        simp [freshGroups, groupNexts, offsets, long, nexts]
  obtain ⟨same, nexts⟩ := split 0
  rw [groupSlots, same, nexts]

theorem getElem?_freshGroups (enough : cells.length = sizes.sum) {group : Group α}
    (found : (freshGroups sizes cells)[bucket]? = some group) :
    group.1 = [] ∧ sizes[bucket]? = some group.2.length := by
  induction sizes generalizing cells bucket with
  | nil => simp [freshGroups] at found
  | cons size sizes ih =>
    rw [sum_cons] at enough
    cases bucket with
    | zero =>
      simp only [freshGroups, List.getElem?_cons_zero, Option.some.injEq] at found
      subst found
      refine ⟨rfl, ?_⟩
      rw [List.getElem?_cons_zero, length_take]
      congr 1
      omega
    | succ bucket =>
      have rest : (cells.drop size).length = sizes.sum := by
        rw [length_drop]
        omega
      simpa using ih rest found

theorem length_freshGroups (sizes : List Nat) (cells : List α) :
    (freshGroups sizes cells).length = sizes.length := by
  induction sizes generalizing cells with
  | nil => rfl
  | cons size sizes ih => simp [freshGroups, ih]

theorem distribute_cells (enough : cells.length = sizes.sum)
    (inside : ∀ entry ∈ entries, ∀ bucket, bucketOf entry = some bucket → bucket < sizes.length)
    (counted : ∀ (bucket size : Nat), sizes[bucket]? = some size → size = (inBucket bucketOf entries bucket).length) :
    (distribute bucketOf { cells := cells, nexts := offsets 0 sizes } entries).cells =
      (List.range sizes.length).flatMap (inBucket bucketOf entries) := by
  have room : RoomFor bucketOf (freshGroups sizes cells) entries := by
    refine ⟨by simpa [length_freshGroups] using inside, ?_⟩
    intro bucket group found
    exact counted bucket _ (getElem?_freshGroups enough found).2
  have final : (freshGroups sizes cells).mapIdx (fun bucket group =>
      (group.1 ++ inBucket bucketOf entries bucket, ([] : List α))) =
      (List.range sizes.length).map fun bucket => (inBucket bucketOf entries bucket, []) := by
    refine ext_getElem? fun bucket => ?_
    rw [List.getElem?_mapIdx, List.getElem?_map]
    cases found : (freshGroups sizes cells)[bucket]? with
    | none =>
      rw [List.getElem?_eq_none_iff, length_freshGroups] at found
      rw [List.getElem?_eq_none (by simpa using found)]
      rfl
    | some group =>
      have within := (List.getElem?_eq_some_iff.mp found).1
      rw [length_freshGroups] at within
      rw [List.getElem?_range within]
      simp [(getElem?_freshGroups enough found).1]
  rw [← groupSlots_fresh enough, distribute_groups room, final]
  simp [groupSlots, groupCells, flatMap_map]

def onRange (reorder : List α → List α) (start size : Nat) (cells : List α) : List α :=
  cells.take start ++ reorder ((cells.drop start).take size) ++ cells.drop (start + size)

theorem onRange_middle (reorder : List α → List α) (before middle after : List α) :
    onRange reorder before.length middle.length (before ++ middle ++ after) =
      before ++ reorder middle ++ after := by
  simp [onRange]

def onRanges (reorder : List α → List α) : Nat → List Nat → List α → List α × Nat
  | start, [], cells => (cells, start)
  | start, size :: sizes, cells =>
    onRanges reorder (start + size) sizes (onRange reorder start size cells)

theorem onRanges_eq {reorder : List α → List α}
    (keeps : ∀ range, (reorder range).length = range.length) (before : List α)
    (ranges : List (List α)) (after : List α) :
    onRanges reorder before.length (ranges.map List.length)
        (before ++ ranges.flatten ++ after) =
      (before ++ (ranges.map reorder).flatten ++ after,
        before.length + ranges.flatten.length) := by
  induction ranges generalizing before with
  | nil => simp [onRanges]
  | cons range ranges ih =>
    have first : onRange reorder before.length range.length
        (before ++ (range :: ranges).flatten ++ after) =
        (before ++ reorder range) ++ ranges.flatten ++ after := by
      have middle := onRange_middle reorder before range (ranges.flatten ++ after)
      simpa using middle
    have moved := ih (before ++ reorder range)
    rw [length_append, keeps] at moved
    rw [map_cons, onRanges, first, moved]
    simp [add_assoc]

end LlamaCpp.Lib
