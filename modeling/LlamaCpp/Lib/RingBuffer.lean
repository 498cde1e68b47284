import Mathlib.Data.List.Basic
import Mathlib.Data.Nat.ModEq

/-!
# Ring buffers

`RingBuffer` keeps the last `capacity` values that were pushed, in an array that wraps
around.  Its contents are a list, oldest value first, and `rat` reads them from the end.
-/

set_option autoImplicit false

namespace LlamaCpp.Lib

open List

/-- The array, the number of values in it, the place of the oldest one and the place where
the next one goes. -/
structure RingBuffer (α : Type) where
  capacity : Nat
  sz : Nat
  first : Nat
  pos : Nat
  data : List α
  room : data.length = capacity
  fits : sz ≤ capacity
  next : pos = (first + sz) % capacity

namespace RingBuffer

variable {α : Type}

theorem place_lt (rb : RingBuffer α) {offset : Nat} (inside : offset < rb.sz) :
    (rb.first + offset) % rb.capacity < rb.data.length := by
  have := rb.fits
  rw [rb.room]
  exact Nat.mod_lt _ (by omega)

/-- `to_vector`: the values, oldest first. -/
def toVector (rb : RingBuffer α) : List α :=
  List.ofFn fun i : Fin rb.sz => rb.data.get ⟨_, rb.place_lt i.isLt⟩

/-- `rat`: the values from the last one back; none where the source throws. -/
def rat (rb : RingBuffer α) (i : Nat) : Option α :=
  if i < rb.sz then rb.data[(rb.first + rb.sz - i - 1) % rb.capacity]? else none

def empty (fill : α) (capacity : Nat) : RingBuffer α where
  capacity := capacity
  sz := 0
  first := 0
  pos := 0
  data := List.replicate capacity fill
  room := length_replicate
  fits := Nat.zero_le _
  next := by simp

/-- `clear` resets the places and leaves the array. -/
def clear (rb : RingBuffer α) : RingBuffer α where
  capacity := rb.capacity
  sz := 0
  first := 0
  pos := 0
  data := rb.data
  room := rb.room
  fits := Nat.zero_le _
  next := by simp

theorem next_full {first sz capacity : Nat} (full : sz = capacity) :
    ((first + sz) % capacity + 1) % capacity = ((first + 1) % capacity + sz) % capacity := by
  subst full
  simp [Nat.add_comm]

/-- `push_back`; none where the source throws. -/
def pushBack (rb : RingBuffer α) (value : α) : Option (RingBuffer α) :=
  if rb.capacity = 0 then none
  else if full : rb.sz = rb.capacity then
    some
      { capacity := rb.capacity
        sz := rb.sz
        first := (rb.first + 1) % rb.capacity
        pos := (rb.pos + 1) % rb.capacity
        data := rb.data.set rb.pos value
        room := by rw [length_set, rb.room]
        fits := rb.fits
        next := by rw [rb.next, next_full full] }
  else
    some
      { capacity := rb.capacity
        sz := rb.sz + 1
        first := rb.first
        pos := (rb.pos + 1) % rb.capacity
        data := rb.data.set rb.pos value
        room := by rw [length_set, rb.room]
        fits := by have := rb.fits; omega
        next := by rw [rb.next, Nat.mod_add_mod, add_assoc] }

@[simp] theorem length_toVector (rb : RingBuffer α) : rb.toVector.length = rb.sz := by
  simp [toVector]

theorem getElem?_toVector (rb : RingBuffer α) {i : Nat} (inside : i < rb.sz) :
    rb.toVector[i]? = rb.data[(rb.first + i) % rb.capacity]? := by
  rw [toVector, List.getElem?_ofFn, dif_pos inside, List.getElem?_eq_getElem (rb.place_lt inside)]
  rfl

theorem rat_eq (rb : RingBuffer α) (i : Nat) : rb.rat i = rb.toVector.reverse[i]? := by
  by_cases inside : i < rb.sz
  · have same : rb.first + rb.sz - i - 1 = rb.first + (rb.sz - 1 - i) := by omega
    rw [List.getElem?_reverse (by rw [length_toVector]; exact inside), length_toVector,
      getElem?_toVector rb (by omega), rat, if_pos inside, same]
  · rw [rat, if_neg inside, List.getElem?_eq_none (by simpa using inside)]

@[simp] theorem toVector_empty (fill : α) (capacity : Nat) :
    (empty fill capacity).toVector = [] := rfl

@[simp] theorem toVector_clear (rb : RingBuffer α) : rb.clear.toVector = [] := rfl

theorem place_ne {capacity a b : Nat} (lt : a < b) (near : b < a + capacity) :
    a % capacity ≠ b % capacity := by
  intro same
  have multiple : capacity ∣ b - a := (Nat.modEq_iff_dvd' lt.le).mp same
  exact absurd (Nat.le_of_dvd (by omega) multiple) (by omega)

variable {rb pushed : RingBuffer α}

theorem toVector_pushBack {value : α} (success : rb.pushBack value = some pushed) :
    pushed.toVector = (rb.toVector ++ [value]).drop (rb.sz + 1 - rb.capacity) := by
  have fits := rb.fits
  unfold pushBack at success
  split at success
  case isTrue => simp at success
  case isFalse some_ =>
    have posIn : rb.pos < rb.data.length := by
      rw [room, next]
      exact Nat.mod_lt _ (by omega)
    split at success
    case isTrue full =>
      rw [Option.some.injEq] at success
      subst success
      refine ext_getElem? fun i => ?_
      by_cases inside : i < rb.sz
      · rw [getElem?_toVector _ (by exact inside), List.getElem?_drop]
        have shift : rb.sz + 1 - rb.capacity + i = i + 1 := by omega
        have place : ((rb.first + 1) % rb.capacity + i) % rb.capacity =
            (rb.first + (i + 1)) % rb.capacity := by
          rw [Nat.mod_add_mod]
          congr 1
          omega
        rw [shift]
        rw [place]
        by_cases last : i + 1 = rb.sz
        · rw [last, ← next, List.getElem?_set_self posIn]
          simp
        · have other : rb.pos ≠ (rb.first + (i + 1)) % rb.capacity := by
            rw [next]
            exact (place_ne (by omega) (by omega)).symm
          rw [List.getElem?_set_ne other, List.getElem?_append_left (by simp; omega),
            getElem?_toVector rb (by omega)]
      · rw [List.getElem?_eq_none (by simpa using inside), List.getElem?_eq_none (by simp; omega)]
    case isFalse notFull =>
      rw [Option.some.injEq] at success
      subst success
      have none : rb.sz + 1 - rb.capacity = 0 := by omega
      rw [none, drop_zero]
      refine ext_getElem? fun i => ?_
      by_cases inside : i < rb.sz + 1
      · rw [getElem?_toVector _ (by exact inside)]
        show (rb.data.set rb.pos value)[(rb.first + i) % rb.capacity]? = _
        by_cases last : i = rb.sz
        · rw [last, ← next, List.getElem?_set_self posIn]
          simp
        · have other : rb.pos ≠ (rb.first + i) % rb.capacity := by
            rw [next]
            exact (place_ne (by omega) (by omega)).symm
          rw [List.getElem?_set_ne other, List.getElem?_append_left (by simp; omega),
            getElem?_toVector rb (by omega)]
      · rw [List.getElem?_eq_none (by simpa using inside),
          List.getElem?_eq_none (by simp; omega)]

theorem capacity_pushBack {value : α} (success : rb.pushBack value = some pushed) :
    pushed.capacity = rb.capacity := by
  unfold pushBack at success
  split at success
  · simp at success
  · split at success <;> (rw [Option.some.injEq] at success; subst success; rfl)

theorem toVector_pushes {values : List α} (success : values.foldlM pushBack rb = some pushed) :
    pushed.toVector =
      (rb.toVector ++ values).drop (rb.sz + values.length - rb.capacity) := by
  induction values generalizing rb with
  | nil =>
    have fits := rb.fits
    have none : rb.sz + 0 - rb.capacity = 0 := by omega
    rw [foldlM_nil, Option.pure_def, Option.some.injEq] at success
    rw [length_nil, none, append_nil, drop_zero, success]
  | cons value values ih =>
    obtain ⟨next, first, rest⟩ := Option.bind_eq_some_iff.mp success
    have contents := toVector_pushBack first
    have size := congrArg List.length contents
    rw [length_toVector, length_drop, length_append, length_toVector,
      length_singleton] at size
    have unread : (rb.sz + 1 - rb.capacity) ≤ (rb.toVector ++ [value]).length := by
      rw [length_append, length_toVector, length_singleton]
      omega
    have split : rb.toVector ++ value :: values = rb.toVector ++ [value] ++ values := by simp
    rw [ih rest, contents, capacity_pushBack first, split,
      ← drop_append_of_le_length unread, drop_drop]
    congr 1
    rw [length_cons]
    omega

end RingBuffer

end LlamaCpp.Lib
