import LlamaCpp.Lib.Layout

/-!
# Reading from a file

A reader takes a value from the front of the bytes that are left, or fails, and notes what it does
on the way.  `Reads` says that it takes exactly the bytes that were written for a value, whatever
follows them; `Notes` says what it notes, whether it fails or not.  The rules of both follow the
structure of the reader.
-/

set_option autoImplicit false

namespace LlamaCpp.Lib

open List

structure Input (σ : Type) where
  bytes : Bytes
  notes : List σ

abbrev Reader (σ α : Type) := ExceptT String (StateM (Input σ)) α

variable {σ α β γ : Type}

/-- Exactly `size` bytes. -/
def fread (failure : String) (size : Nat) : Reader σ Bytes := fun input =>
  if input.bytes.length < size then (.error failure, input)
  else (.ok (input.bytes.take size), { input with bytes := input.bytes.drop size })

def note (step : σ) : Reader σ Unit := fun input =>
  (.ok (), { input with notes := input.notes ++ [step] })

def remaining : Reader σ Nat := fun input => (.ok input.bytes.length, input)

def freadEl (failure : String) (layout : Layout α) : Reader σ α := do
  return layout.read (← fread failure layout.size)

def repeatRead (read : Reader σ α) : Nat → Reader σ (List α)
  | 0 => return []
  | count + 1 => do
      let value ← read
      return value :: (← repeatRead read count)

theorem bind_apply (reader : Reader σ α) (next : α → Reader σ β) (input : Input σ) :
    (reader >>= next) input = match reader input with
      | (.ok value, after) => next value after
      | (.error message, after) => (.error message, after) := by
  change ExceptT.bindCont next (reader input).1 (reader input).2 = _
  rcases reader input with ⟨_ | _, after⟩
  · rfl
  · rfl

variable {reader : Reader σ α} {next : α → Reader σ β} {value : α} {result : β} {written : Bytes}

theorem bind_ok {input after : Input σ} (returns : reader input = (.ok value, after)) :
    (reader >>= next) input = next value after := by
  rw [bind_apply, returns]

theorem bind_note (step : σ) (next : Unit → Reader σ β) (input : Input σ) :
    (note step >>= next) input = next () { input with notes := input.notes ++ [step] } := rfl

theorem bind_remaining (next : Nat → Reader σ β) (input : Input σ) :
    (remaining >>= next) input = next input.bytes.length input := rfl

theorem bind_inversion {input after : Input σ}
    (returned : (reader >>= next) input = (.ok result, after)) :
    ∃ value between, reader input = (.ok value, between) ∧
      next value between = (.ok result, after) := by
  rw [bind_apply] at returned
  split at returned
  · rename_i value between first
    exact ⟨value, between, first, returned⟩
  · cases returned

def Reads (reader : Reader σ α) (written : Bytes) (value : α) : Prop :=
  ∀ rest notes, ∃ more, reader ⟨written ++ rest, notes⟩ = (.ok value, ⟨rest, more⟩)

theorem reads_pure (value : α) : Reads (σ := σ) (pure value) [] value :=
  fun _ notes => ⟨notes, rfl⟩

theorem reads_note (step : σ) : Reads (note step) [] () := fun _ _ => ⟨_, rfl⟩

theorem Reads.bind {first second : Bytes} (reads : Reads reader first value)
    (continues : Reads (next value) second result) :
    Reads (reader >>= next) (first ++ second) result := by
  intro rest notes
  obtain ⟨between, taken⟩ := reads (second ++ rest) notes
  rw [append_assoc, bind_ok taken]
  exact continues rest between

theorem Reads.map (reads : Reads reader written value) (returns : Reads (next value) [] result) :
    Reads (reader >>= next) written result := by
  have both := reads.bind returns
  rwa [append_nil] at both

theorem Reads.after (reads : Reads reader [] value)
    (continues : Reads (next value) written result) :
    Reads (reader >>= next) written result := reads.bind continues

theorem reads_fread (failure : String) (bytes : Bytes) :
    Reads (σ := σ) (fread failure bytes.length) bytes bytes := by
  intro rest notes
  have enough : ¬ (bytes ++ rest).length < bytes.length := by
    rw [length_append]
    omega
  exact ⟨notes, by rw [fread, if_neg enough, take_left, drop_left]⟩

theorem reads_freadEl (failure : String) (layout : Layout α) (value : α) :
    Reads (σ := σ) (freadEl failure layout) (layout.write value) value := by
  have bytes := reads_fread (σ := σ) failure (layout.write value)
  rw [layout.length_write] at bytes
  refine bytes.map ?_
  have read := layout.read_write value []
  rw [append_nil] at read
  rw [read]
  exact reads_pure value

theorem reads_repeatRead {read : Reader σ β} {write : γ → Bytes} {result : γ → β} {values : List γ}
    (each : ∀ value ∈ values, Reads read (write value) (result value)) :
    Reads (repeatRead read values.length) (values.flatMap write) (values.map result) := by
  induction values with
  | nil => exact reads_pure []
  | cons value rest ih =>
    refine (each value mem_cons_self).bind ?_
    exact (ih fun other member => each other (mem_cons_of_mem _ member)).map (reads_pure _)

def Stops (reader : Reader σ α) (written : Bytes) : Prop :=
  ∀ rest notes, ∃ message after, reader ⟨written ++ rest, notes⟩ = (.error message, after)

theorem stops_throw (message : String) (written : Bytes) :
    Stops (σ := σ) (α := α) (throw message) written := fun _ _ => ⟨message, _, rfl⟩

theorem Stops.bind (stops : Stops reader written) (next : α → Reader σ β) :
    Stops (reader >>= next) written := by
  intro rest notes
  obtain ⟨message, after, stopped⟩ := stops rest notes
  exact ⟨message, after, by rw [bind_apply, stopped]⟩

theorem Reads.stops {first second : Bytes} (reads : Reads reader first value)
    (stops : Stops (next value) second) : Stops (reader >>= next) (first ++ second) := by
  intro rest notes
  obtain ⟨between, taken⟩ := reads (second ++ rest) notes
  rw [append_assoc, bind_ok taken]
  exact stops rest between

theorem Reads.stops_after (reads : Reads reader [] value) (stops : Stops (next value) written) :
    Stops (reader >>= next) written := reads.stops stops

theorem Stops.append (stops : Stops reader written) (more : Bytes) :
    Stops reader (written ++ more) := by
  intro rest notes
  rw [append_assoc]
  exact stops (more ++ rest) notes

/-- Whatever the reader is given, what it notes meets `P`. -/
def Notes (P : σ → Prop) (reader : Reader σ α) : Prop :=
  ∀ input, (∀ step ∈ input.notes, P step) → ∀ step ∈ (reader input).2.notes, P step

section

variable {P : σ → Prop}

theorem notes_pure (value : α) : Notes P (pure value) := fun _ before => before

theorem notes_throw (message : String) : Notes (α := α) P (throw message) := fun _ before => before

theorem notes_note {step : σ} (fine : P step) : Notes P (note step) := by
  intro input before other member
  rcases mem_append.mp member with old | new
  · exact before other old
  · rw [mem_singleton.mp new]
    exact fine

theorem notes_fread (failure : String) (size : Nat) : Notes P (fread failure size) := by
  intro input before
  rw [fread]
  split
  · exact before
  · exact before

def Returns (reader : Reader σ α) (value : α) : Prop :=
  ∃ input after, reader input = (.ok value, after)

variable {reader : Reader σ α} {next : α → Reader σ β} {result : α}

theorem Notes.bind_returns (first : Notes P reader)
    (second : ∀ value, Returns reader value → Notes P (next value)) :
    Notes P (reader >>= next) := by
  intro input before
  rw [bind_apply]
  have noted := first input before
  cases ran : reader input with
  | mk result after =>
    rw [ran] at noted
    cases result with
    | error message => exact noted
    | ok value => exact second value ⟨input, after, ran⟩ after noted

theorem Notes.bind (first : Notes P reader) (second : ∀ value, Notes P (next value)) :
    Notes P (reader >>= next) :=
  first.bind_returns fun value _ => second value

theorem returns_bind {result : β} (returned : Returns (reader >>= next) result) :
    ∃ value, Returns reader value ∧ Returns (next value) result := by
  obtain ⟨input, after, ran⟩ := returned
  obtain ⟨value, between, first, second⟩ := bind_inversion ran
  exact ⟨value, ⟨input, between, first⟩, between, after, second⟩

theorem returns_pure {value : α} (returned : Returns (σ := σ) (pure value) result) :
    result = value := by
  obtain ⟨input, after, ran⟩ := returned
  cases ran
  rfl

theorem not_returns_throw {message : String} : ¬ Returns (σ := σ) (throw message) result := by
  rintro ⟨input, after, ran⟩
  cases ran

theorem returns_ite {c : Prop} [Decidable c] {yes no : Reader σ α}
    (returned : Returns (if c then yes else no) result) :
    c ∧ Returns yes result ∨ ¬ c ∧ Returns no result := by
  split at returned
  · rename_i holds
    exact .inl ⟨holds, returned⟩
  · rename_i fails
    exact .inr ⟨fails, returned⟩

theorem length_repeatRead {read : Reader σ α} {count : Nat} {values : List α}
    (returned : Returns (repeatRead read count) values) : values.length = count := by
  induction count generalizing values with
  | zero => rw [returns_pure returned, length_nil]
  | succ count ih =>
    obtain ⟨value, -, rest⟩ := returns_bind returned
    obtain ⟨others, more, last⟩ := returns_bind rest
    rw [returns_pure last, length_cons, ih more]

theorem notes_ite {c : Prop} [Decidable c] {yes no : Reader σ α} (whenTrue : c → Notes P yes)
    (whenFalse : ¬ c → Notes P no) : Notes P (if c then yes else no) := by
  split
  · rename_i holds
    exact whenTrue holds
  · rename_i fails
    exact whenFalse fails

theorem notes_freadEl (failure : String) (layout : Layout α) : Notes P (freadEl failure layout) :=
  (notes_fread failure layout.size).bind fun _ => notes_pure _

theorem notes_repeatRead {read : Reader σ α} (each : Notes P read) (count : Nat) :
    Notes P (repeatRead read count) := by
  induction count with
  | zero => exact notes_pure []
  | succ count ih => exact each.bind fun _ => ih.bind fun _ => notes_pure _

end

def Adds (reader : Reader σ α) (result : Except String α) (added : List σ) : Prop :=
  ∀ input, reader input = (result, { input with notes := input.notes ++ added })

theorem adds_pure (value : α) : Adds (σ := σ) (pure value) (.ok value) [] := by
  intro input
  rw [append_nil]
  rfl

theorem adds_throw (message : String) : Adds (σ := σ) (α := α) (throw message) (.error message) [] := by
  intro input
  rw [append_nil]
  rfl

theorem adds_note (step : σ) : Adds (note step) (.ok ()) [step] := fun _ => rfl

theorem Adds.bind {result : Except String β} {first second : List σ}
    (adds : Adds reader (.ok value) first) (continues : Adds (next value) result second) :
    Adds (reader >>= next) result (first ++ second) := by
  intro input
  rw [bind_ok (adds input), continues, append_assoc]

theorem Adds.bind_error {message : String} {added : List σ}
    (adds : Adds reader (.error message) added) :
    Adds (reader >>= next) (.error message) added := by
  intro input
  rw [bind_apply, adds]

end LlamaCpp.Lib
