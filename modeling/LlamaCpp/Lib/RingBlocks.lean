import LlamaCpp.Lib.RingBuffer

/-!
# Blocks in a ring

Several values at once are copied into the array of a ring buffer, in pieces that end where the
array ends, and the contents are read back in at most two pieces.  A block that is copied is as
many pushes.
-/

set_option autoImplicit false

namespace LlamaCpp.Lib

open List

variable {α : Type}

def writeBlock (data : List α) (place : Nat) (block : List α) : List α :=
  data.take place ++ block ++ data.drop (place + block.length)

variable {data : List α} {place : Nat} {block : List α}

theorem length_writeBlock (fits : place + block.length ≤ data.length) :
    (writeBlock data place block).length = data.length := by
  simp only [writeBlock, length_append, length_take, length_drop]
  omega

theorem writeBlock_nil (data : List α) (place : Nat) : writeBlock data place [] = data := by
  rw [writeBlock, append_nil, length_nil, add_zero, take_append_drop]

theorem writeBlock_whole (whole : block.length = data.length) :
    writeBlock data 0 block = block := by
  rw [writeBlock, zero_add, whole, drop_length, append_nil]
  rfl

theorem writeBlock_twice {first second : List α}
    (whole : first.length + second.length = data.length) :
    writeBlock (writeBlock data 0 first) first.length second = first ++ second := by
  have front : (writeBlock data 0 first).take first.length = first := by
    rw [writeBlock, take_zero, nil_append, take_left]
  have fits : 0 + first.length ≤ data.length := by omega
  have none_ : (writeBlock data 0 first).drop (first.length + second.length) = [] := by
    rw [whole, ← length_writeBlock fits]
    exact drop_length
  rw [writeBlock, front, none_, append_nil]

theorem writeBlock_cons {value : α} (inside : place < data.length) :
    writeBlock data place (value :: block) = writeBlock (data.set place value) (place + 1) block := by
  have front : (data.set place value).take (place + 1) = data.take place ++ [value] := by
    rw [take_add_one, List.getElem?_set_self inside, take_set_of_le (le_refl place)]
    rfl
  have back : (data.set place value).drop (place + 1 + block.length) =
      data.drop (place + (block.length + 1)) := by
    rw [drop_set_of_lt (by omega), add_assoc, add_comm 1]
  rw [writeBlock, writeBlock, front, back, append_assoc, append_assoc,
    append_assoc]
  rfl

def pushPlace (capacity : Nat) (ring : List α × Nat) (value : α) : List α × Nat :=
  (ring.1.set ring.2 value, (ring.2 + 1) % capacity)

theorem writeBlock_eq_pushes {capacity : Nat} (room : data.length = capacity)
    (fits : place + block.length ≤ capacity) :
    (writeBlock data place block, (place + block.length) % capacity) =
      block.foldl (pushPlace capacity) (data, place % capacity) := by
  induction block generalizing data place with
  | nil => simp [writeBlock]
  | cons value block ih =>
    rw [length_cons] at fits
    have inside : place < capacity := by omega
    have kept : (data.set place value).length = capacity := by rw [length_set, room]
    have rest := ih kept (show place + 1 + block.length ≤ capacity by omega)
    rw [writeBlock_cons (by omega), length_cons, foldl_cons, pushPlace,
      Nat.mod_eq_of_lt inside, ← rest, add_assoc, add_comm 1]

/-- The loop that copies rows, each piece up to the end of the array; it is done when no row is
left. -/
def copyRows (capacity : Nat) : Nat → List α × Nat → List α → List α × Nat
  | 0, ring, _ => ring
  | fuel + 1, ring, rows =>
    if rows = [] then ring
    else
      let chunk := min rows.length (capacity - ring.2)
      copyRows capacity fuel
        (writeBlock ring.1 ring.2 (rows.take chunk), (ring.2 + chunk) % capacity)
        (rows.drop chunk)

theorem copyRows_eq_pushes {capacity fuel : Nat} {ring : List α × Nat} {rows : List α}
    (room : ring.1.length = capacity) (inside : ring.2 < capacity) (enough : rows.length ≤ fuel) :
    copyRows capacity fuel ring rows = rows.foldl (pushPlace capacity) ring := by
  induction fuel generalizing ring rows with
  | zero =>
    rw [eq_nil_of_length_eq_zero (Nat.le_zero.mp enough)]
    rfl
  | succ fuel ih =>
    by_cases empty : rows = []
    · rw [empty]
      rfl
    · generalize chunk_ : min rows.length (capacity - ring.2) = chunk
      have taken : (rows.take chunk).length = chunk := by
        rw [length_take]
        omega
      have fits : ring.2 + (rows.take chunk).length ≤ capacity := by omega
      have written := writeBlock_eq_pushes room fits
      rw [taken, Nat.mod_eq_of_lt inside] at written
      have kept : (writeBlock ring.1 ring.2 (rows.take chunk)).length = capacity := by
        rw [length_writeBlock (by omega), room]
      have later := @ih (writeBlock ring.1 ring.2 (rows.take chunk), (ring.2 + chunk) % capacity)
        (rows.drop chunk) kept (Nat.mod_lt _ (by omega))
        (by rw [length_drop]; omega)
      rw [copyRows, if_neg empty]
      simp only [chunk_]
      rw [later, written, ← foldl_append, take_append_drop]

namespace RingBuffer

section

variable (rb : RingBuffer α)
include rb

theorem pos_lt (some_ : 0 < rb.capacity) : rb.pos < rb.capacity := by
  rw [rb.next]
  exact Nat.mod_lt _ some_

theorem exists_pushBack (some_ : 0 < rb.capacity) (value : α) :
    ∃ pushed, rb.pushBack value = some pushed ∧
      (pushed.data, pushed.pos) = pushPlace rb.capacity (rb.data, rb.pos) value ∧
      pushed.sz = min rb.capacity (rb.sz + 1) := by
  have fits := rb.fits
  unfold pushBack
  rw [if_neg (by omega)]
  split
  · exact ⟨_, rfl, rfl, by dsimp only; omega⟩
  · exact ⟨_, rfl, rfl, by dsimp only; omega⟩

theorem exists_pushes (some_ : 0 < rb.capacity) (values : List α) :
    ∃ pushed : RingBuffer α, (pushed.data, pushed.pos) =
        values.foldl (pushPlace rb.capacity) (rb.data, rb.pos) ∧
      pushed.capacity = rb.capacity ∧ pushed.sz = min rb.capacity (rb.sz + values.length) ∧
      pushed.toVector =
        (rb.toVector ++ values).drop (rb.sz + values.length - rb.capacity) := by
  have pushes : ∃ pushed, values.foldlM pushBack rb = some pushed ∧
      (pushed.data, pushed.pos) = values.foldl (pushPlace rb.capacity) (rb.data, rb.pos) ∧
      pushed.capacity = rb.capacity ∧ pushed.sz = min rb.capacity (rb.sz + values.length) := by
    induction values generalizing rb with
    | nil => exact ⟨rb, rfl, rfl, rfl, (min_eq_right rb.fits).symm⟩
    | cons value values ih =>
      obtain ⟨next, first, placed, size⟩ := rb.exists_pushBack some_ value
      have sameCapacity := capacity_pushBack first
      obtain ⟨pushed, rest, laterPlaced, capacity, laterSize⟩ := ih next (by omega)
      refine ⟨pushed, by rw [foldlM_cons, first]; exact rest, ?_, by omega, ?_⟩
      · rw [laterPlaced, sameCapacity, placed]
        rfl
      · rw [laterSize, length_cons]
        omega
  obtain ⟨pushed, ran, placed, capacity, size⟩ := pushes
  exact ⟨pushed, placed, capacity, size, toVector_pushes ran⟩

theorem start_eq :
    (rb.pos + rb.capacity - rb.sz) % rb.capacity = rb.first % rb.capacity := by
  have fits := rb.fits
  have turns := Nat.mod_add_div (rb.first + rb.sz) rb.capacity
  rw [← rb.next] at turns
  have around : rb.pos + rb.capacity - rb.sz + rb.capacity * ((rb.first + rb.sz) / rb.capacity) =
      rb.first + rb.capacity := by omega
  rw [← Nat.add_mul_mod_self_left _ _ ((rb.first + rb.sz) / rb.capacity), around,
    Nat.add_mod_right]

theorem toVector_pieces {start firstRows : Nat}
    (start_ : start = (rb.pos + rb.capacity - rb.sz) % rb.capacity)
    (first : firstRows = min rb.sz (rb.capacity - start)) :
    rb.toVector = (rb.data.drop start).take firstRows ++ rb.data.take (rb.sz - firstRows) := by
  have fits := rb.fits
  have room := rb.room
  refine ext_getElem? fun i => ?_
  by_cases inside : i < rb.sz
  · have startIn : start < rb.capacity := by
      rw [start_]
      exact Nat.mod_lt _ (by omega)
    have place : (rb.first + i) % rb.capacity = (start + i) % rb.capacity := by
      rw [start_, rb.start_eq, Nat.mod_add_mod]
    have frontLength : ((rb.data.drop start).take firstRows).length = firstRows := by
      rw [length_take, length_drop]
      omega
    rw [getElem?_toVector rb inside, place]
    by_cases front : i < firstRows
    · rw [Nat.mod_eq_of_lt (by omega), List.getElem?_append_left (by omega),
        List.getElem?_take_of_lt front, List.getElem?_drop]
    · have wraps : (start + i) % rb.capacity = i - firstRows := by
        rw [Nat.mod_eq_sub_mod (by omega), Nat.mod_eq_of_lt (by omega)]
        omega
      rw [wraps, List.getElem?_append_right (by omega), frontLength,
        List.getElem?_take_of_lt (by omega)]
  · rw [List.getElem?_eq_none (by rw [length_toVector]; omega), List.getElem?_eq_none]
    simp only [length_append, length_take]
    omega

end

def ofBlock (data block : List α) (fits : block.length ≤ data.length) : RingBuffer α where
  capacity := data.length
  sz := block.length
  first := 0
  pos := block.length % data.length
  data := writeBlock data 0 block
  room := length_writeBlock (by omega)
  fits := fits
  next := by rw [zero_add]

theorem toVector_ofBlock {data block : List α} (fits : block.length ≤ data.length) :
    (ofBlock data block fits).toVector = block := by
  refine ext_getElem? fun i => ?_
  by_cases inside : i < block.length
  · rw [getElem?_toVector _ (show i < (ofBlock data block fits).sz from inside)]
    change (writeBlock data 0 block)[(0 + i) % data.length]? = _
    rw [Nat.zero_add, Nat.mod_eq_of_lt (by omega), writeBlock, take_zero, nil_append,
      List.getElem?_append_left inside]
  · rw [List.getElem?_eq_none (by rw [length_toVector]; exact Nat.le_of_not_lt inside),
      List.getElem?_eq_none (Nat.le_of_not_lt inside)]

end RingBuffer

end LlamaCpp.Lib
