import Mathlib.Data.String.Basic
import LlamaCpp.Lib.Assoc
import Mathlib.Algebra.Group.Int.Defs

/-!
# JSON values

An object is the list of its entries.  A value with sorted keys keeps the entries of each
object in increasing order; `toSorted` turns a value that keeps the order of insertion into
one with sorted keys, and changes nothing exactly when the keys are sorted already.
-/

set_option autoImplicit false

namespace LlamaCpp.Lib

open List

/-- A number: an integer, a nonnegative integer, or `mantissa * 2 ^ exponent`. -/
inductive JsonNumber
  | integer (n : Int)
  | unsigned (n : Nat)
  | float (mantissa exponent : Int)
deriving DecidableEq

def JsonNumber.truncate : JsonNumber → Int
  | integer n => n
  | unsigned n => n
  | float mantissa exponent =>
    if 0 ≤ exponent then mantissa * 2 ^ exponent.toNat
    else mantissa.tdiv (2 ^ (-exponent).toNat)

inductive Json
  | null
  | bool (value : Bool)
  | number (value : JsonNumber)
  | string (value : String)
  | array (items : List Json)
  | object (entries : List (String × Json))

section

variable {ν : Type*}

def insertKey (key : String) (value : ν) : List (String × ν) → List (String × ν)
  | [] => [(key, value)]
  | entry :: rest =>
    if key < entry.1 then (key, value) :: entry :: rest
    else if key = entry.1 then (key, value) :: rest
    else entry :: insertKey key value rest

def sortKeys (entries : List (String × ν)) : List (String × ν) :=
  entries.foldr (fun entry sorted => insertKey entry.1 entry.2 sorted) []

variable {entries : List (String × ν)}

theorem insertKey_of_below {key : String} (below : ∀ entry ∈ entries, key < entry.1) (value : ν) :
    insertKey key value entries = (key, value) :: entries := by
  cases entries with
  | nil => rfl
  | cons entry rest => rw [insertKey, if_pos (below entry (mem_cons_self ..))]

theorem mem_insertKey {key : String} {value : ν} {entry : String × ν}
    (member : entry ∈ insertKey key value entries) : entry = (key, value) ∨ entry ∈ entries := by
  induction entries with
  | nil => exact Or.inl (mem_singleton.mp member)
  | cons first rest ih =>
    rw [insertKey] at member
    split_ifs at member
    · exact mem_cons.mp member
    · rcases mem_cons.mp member with here | later
      · exact Or.inl here
      · exact Or.inr (mem_cons_of_mem _ later)
    · rcases mem_cons.mp member with here | later
      · exact Or.inr (here ▸ mem_cons_self ..)
      · exact (ih later).imp_right (mem_cons_of_mem _)

theorem mem_sortKeys {entry : String × ν} (member : entry ∈ sortKeys entries) :
    entry ∈ entries := by
  induction entries with
  | nil => exact member
  | cons first rest ih =>
    rcases mem_insertKey member with here | later
    · exact here ▸ mem_cons_self ..
    · exact mem_cons_of_mem _ (ih later)

theorem insertKey_map {μ : Type*} (change : ν → μ) (key : String) (value : ν)
    (entries : List (String × ν)) :
    insertKey key (change value) (entries.map fun entry => (entry.1, change entry.2)) =
      (insertKey key value entries).map fun entry => (entry.1, change entry.2) := by
  induction entries with
  | nil => rfl
  | cons entry rest ih =>
    rw [map_cons, insertKey, insertKey, ih]
    split_ifs <;> rfl

theorem sortKeys_map {μ : Type*} (change : ν → μ) (entries : List (String × ν)) :
    sortKeys (entries.map fun entry => (entry.1, change entry.2)) =
      (sortKeys entries).map fun entry => (entry.1, change entry.2) := by
  induction entries with
  | nil => rfl
  | cons entry rest ih =>
    have step := insertKey_map change entry.1 entry.2 (sortKeys rest)
    rw [← ih] at step
    exact step

theorem lookup_insertKey (key other : String) (value : ν) (entries : List (String × ν)) :
    (insertKey key value entries).lookup other = ((key, value) :: entries).lookup other := by
  induction entries with
  | nil => rfl
  | cons entry rest ih =>
    rw [insertKey]
    split_ifs with before same
    · rfl
    · by_cases here : other = key
      · rw [here, lookup_cons_self, lookup_cons_self]
      · rw [lookup_cons_of_ne here, lookup_cons_of_ne here, lookup_cons_of_ne (same ▸ here)]
    · by_cases here : other = entry.1
      · have differ : other ≠ key := fun atKey => same (atKey.symm.trans here)
        rw [lookup_cons_of_eq here, lookup_cons_of_ne differ, lookup_cons_of_eq here]
      · rw [lookup_cons_of_ne here, ih]
        by_cases atKey : other = key
        · rw [atKey, lookup_cons_self, lookup_cons_self]
        · rw [lookup_cons_of_ne atKey, lookup_cons_of_ne atKey, lookup_cons_of_ne here]

theorem lookup_sortKeys (entries : List (String × ν)) (key : String) :
    (sortKeys entries).lookup key = entries.lookup key := by
  induction entries with
  | nil => rfl
  | cons entry rest ih =>
    change (insertKey entry.1 entry.2 (sortKeys rest)).lookup key = _
    rw [lookup_insertKey, lookup_cons, ih, ← lookup_cons]

end

mutual

def Json.toSorted : Json → Json
  | .null => .null
  | .bool value => .bool value
  | .number value => .number value
  | .string value => .string value
  | .array items => .array (Json.sortItems items)
  | .object entries => .object (Json.sortEntries entries)

def Json.sortItems : List Json → List Json
  | [] => []
  | item :: rest => item.toSorted :: Json.sortItems rest

def Json.sortEntries : List (String × Json) → List (String × Json)
  | [] => []
  | (key, value) :: rest => insertKey key value.toSorted (Json.sortEntries rest)

end

mutual

def Json.IsSorted : Json → Prop
  | .null | .bool _ | .number _ | .string _ => True
  | .array items => Json.ItemsSorted items
  | .object entries => Json.EntriesSorted entries

def Json.ItemsSorted : List Json → Prop
  | [] => True
  | item :: rest => item.IsSorted ∧ Json.ItemsSorted rest

def Json.EntriesSorted : List (String × Json) → Prop
  | [] => True
  | (key, value) :: rest =>
    (∀ entry ∈ rest, key < entry.1) ∧ value.IsSorted ∧ Json.EntriesSorted rest

end

namespace Json

theorem EntriesSorted.insertKey {entries : List (String × Json)} (sorted : EntriesSorted entries)
    (key : String) {value : Json} (valueSorted : value.IsSorted) :
    EntriesSorted (Lib.insertKey key value entries) := by
  induction entries with
  | nil => exact ⟨nofun, valueSorted, trivial⟩
  | cons entry rest ih =>
    obtain ⟨below, entrySorted, restSorted⟩ := sorted
    rw [Lib.insertKey]
    split_ifs with before same
    · refine ⟨fun other member => ?_, valueSorted, below, entrySorted, restSorted⟩
      rcases mem_cons.mp member with here | later
      · exact here ▸ before
      · exact before.trans (below other later)
    · exact ⟨same ▸ below, valueSorted, restSorted⟩
    · refine ⟨fun other member => ?_, entrySorted, ih restSorted⟩
      rcases mem_insertKey member with here | later
      · rw [here]
        exact lt_of_le_of_ne (not_lt.mp before) (Ne.symm same)
      · exact below other later

mutual

theorem toSorted_sorted : ∀ value : Json, value.toSorted.IsSorted
  | .null | .bool _ | .number _ | .string _ => trivial
  | .array items => sortItems_sorted items
  | .object entries => sortEntries_sorted entries

theorem sortItems_sorted : ∀ items : List Json, ItemsSorted (sortItems items)
  | [] => trivial
  | item :: rest => ⟨toSorted_sorted item, sortItems_sorted rest⟩

theorem sortEntries_sorted : ∀ entries : List (String × Json), EntriesSorted (sortEntries entries)
  | [] => trivial
  | (key, value) :: rest => (sortEntries_sorted rest).insertKey key (toSorted_sorted value)

end

mutual

theorem toSorted_of_sorted : ∀ value : Json, value.IsSorted → value.toSorted = value
  | .null, _ | .bool _, _ | .number _, _ | .string _, _ => rfl
  | .array items, sorted => congrArg Json.array (sortItems_of_sorted items sorted)
  | .object entries, sorted => congrArg Json.object (sortEntries_of_sorted entries sorted)

theorem sortItems_of_sorted : ∀ items : List Json, ItemsSorted items → sortItems items = items
  | [], _ => rfl
  | item :: rest, sorted => by
      rw [sortItems, toSorted_of_sorted item sorted.1, sortItems_of_sorted rest sorted.2]

theorem sortEntries_of_sorted : ∀ entries : List (String × Json), EntriesSorted entries →
    sortEntries entries = entries
  | [], _ => rfl
  | (key, value) :: rest, sorted => by
      rw [sortEntries, toSorted_of_sorted value sorted.2.1, sortEntries_of_sorted rest sorted.2.2,
        insertKey_of_below sorted.1]

end

theorem toSorted_eq_iff {value : Json} : value.toSorted = value ↔ value.IsSorted :=
  ⟨fun same => same ▸ toSorted_sorted value, toSorted_of_sorted value⟩

/-- `contains` and `operator[]`. -/
def find? : Json → String → Option Json
  | .object entries, key => entries.lookup key
  | _, _ => none

def contains (value : Json) (key : String) : Bool := (value.find? key).isSome

def at_ (value : Json) (key : String) : Json := (value.find? key).getD .null

def isNull : Json → Bool
  | .null => true
  | _ => false

def isString : Json → Bool
  | .string _ => true
  | _ => false

def isArray : Json → Bool
  | .array _ => true
  | _ => false

def isObject : Json → Bool
  | .object _ => true
  | _ => false

def ofEntries (entries : List (String × Json)) : Json := .object (sortKeys entries)

theorem find?_ofEntries (entries : List (String × Json)) (key : String) :
    (ofEntries entries).find? key = entries.lookup key := lookup_sortKeys entries key

def elements : Json → List Json
  | .null => []
  | .array items => items
  | .object entries => entries.map Prod.snd
  | value => [value]

def typeError {α : Type} : Except String α := .error "type_error"

def getBool : Json → Except String Bool
  | .bool value => .ok value
  | _ => typeError

def getString : Json → Except String String
  | .string value => .ok value
  | _ => typeError

def getNumber : Json → Except String Int
  | .number value => .ok value.truncate
  | .bool value => .ok (if value then 1 else 0)
  | _ => typeError

def getSize (value : Json) : Except String UInt64 :=
  value.getNumber.map fun n => UInt64.ofNat (n % 2 ^ 64).toNat

def getInt (value : Json) : Except String Int32 := value.getNumber.map Int32.ofInt

def getUInt32 (value : Json) : Except String UInt32 :=
  value.getNumber.map fun n => UInt32.ofNat (n % 2 ^ 32).toNat

def getItems {α : Type} (item : Json → Except String α) : Json → Except String (List α)
  | .array items => items.mapM item
  | _ => typeError

def getEntries {α : Type} (item : Json → Except String α) : Json → Except String (List (String × α))
  | .object entries => entries.mapM fun entry => (item entry.2).map fun value => (entry.1, value)
  | _ => typeError

end Json

end LlamaCpp.Lib
