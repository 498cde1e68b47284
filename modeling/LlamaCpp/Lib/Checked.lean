import Mathlib.Data.List.Basic

/-!
# Computations with checked reads

A read past the end of a list is a fault, and so is an abort of the program itself.
`InBounds result Post` says that the computation makes no read out of bounds and that what
it returns, if it does, meets `Post`.
-/

set_option autoImplicit false

namespace LlamaCpp.Lib

inductive Fault
  | outOfBounds
  | aborted
deriving DecidableEq

abbrev Checked (α : Type) := Except Fault α

def readAt {α : Type} (items : List α) (i : Nat) : Checked α :=
  match items[i]? with
  | some item => .ok item
  | none => .error .outOfBounds

def InBounds {α : Type} (result : Checked α) (Post : α → Prop) : Prop :=
  match result with
  | .ok value => Post value
  | .error .outOfBounds => False
  | .error .aborted => True

def isOutOfBounds {α : Type} : Checked α → Bool
  | .error .outOfBounds => true
  | _ => false

section

variable {α β : Type}

variable {Post : α → Prop} {result : Checked α}

theorem inBounds_ok {value : α} (post : Post value) : InBounds (.ok value) Post := post

theorem inBounds_aborted : InBounds (.error .aborted) Post := trivial

theorem InBounds.mono {Weaker : α → Prop} (safe : InBounds result Post)
    (weaken : ∀ value, Post value → Weaker value) : InBounds result Weaker := by
  cases result with
  | ok value => exact weaken value safe
  | error fault =>
    cases fault with
    | outOfBounds => exact safe
    | aborted => trivial

theorem InBounds.bind {next : α → Checked β} {Middle : α → Prop} {Post : β → Prop}
    (first : InBounds result Middle) (second : ∀ value, Middle value → InBounds (next value) Post) :
    InBounds (result >>= next) Post := by
  cases result with
  | ok value => exact second value first
  | error fault =>
    cases fault with
    | outOfBounds => exact first
    | aborted => trivial

/-- `bind` for a second part that depends on what the first part returned. -/
theorem InBounds.bind_of {next : α → Checked β} {Middle : α → Prop} {Post : β → Prop}
    (first : InBounds result Middle)
    (second : ∀ value, result = .ok value → Middle value → InBounds (next value) Post) :
    InBounds (result >>= next) Post := by
  cases result with
  | ok value => exact second value rfl first
  | error fault =>
    cases fault with
    | outOfBounds => exact first
    | aborted => trivial

theorem InBounds.of_ok (safe : InBounds result Post) {value : α} (returned : result = .ok value) :
    Post value := by
  rw [returned] at safe
  exact safe

theorem InBounds.not_outOfBounds (safe : InBounds result Post) : result ≠ .error .outOfBounds := by
  intro fault
  rw [fault] at safe
  exact safe

theorem isOutOfBounds_iff : isOutOfBounds result = true ↔ result = .error .outOfBounds := by
  cases result with
  | ok value => exact ⟨nofun, nofun⟩
  | error fault =>
    cases fault with
    | outOfBounds => exact ⟨fun _ => rfl, fun _ => rfl⟩
    | aborted => exact ⟨nofun, nofun⟩

theorem inBounds_foldlM {state : Type} (Holds : state → Prop) {next : state → α → Checked state}
    (items : List α) (step : ∀ item ∈ items, ∀ current, Holds current →
      InBounds (next current item) Holds) :
    ∀ start, Holds start → InBounds (items.foldlM next start) Holds := by
  induction items with
  | nil => exact fun start holds => holds
  | cons item rest ih =>
    intro start holds
    refine (step item (List.mem_cons_self ..) start holds).bind fun middle holdsMiddle => ?_
    exact ih (fun other member => step other (List.mem_cons_of_mem _ member)) middle holdsMiddle

theorem readAt_inBounds {items : List α} {i : Nat} (inside : i < items.length) :
    InBounds (readAt items i) (· ∈ items) := by
  rw [readAt, List.getElem?_eq_getElem inside]
  exact List.getElem_mem inside

end

end LlamaCpp.Lib
