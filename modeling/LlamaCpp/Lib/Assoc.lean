import Mathlib.Data.List.Basic

/-!
# Association lists

A map is a list of keys with values, read with `List.lookup`.  `assign` replaces the value
of a key where the key stands, or adds it at the end.
-/

set_option autoImplicit false

namespace LlamaCpp.Lib

variable {κ ν : Type*} [DecidableEq κ]

def assign (key : κ) (value : ν) : List (κ × ν) → List (κ × ν)
  | [] => [(key, value)]
  | entry :: rest =>
    if key = entry.1 then (key, value) :: rest else entry :: assign key value rest

variable {key : κ}

theorem lookup_cons_of_eq {entry : κ × ν} (same : key = entry.1) (rest : List (κ × ν)) :
    (entry :: rest).lookup key = some entry.2 := by
  rw [List.lookup_cons, same, beq_self_eq_true]

theorem lookup_cons_self (key : κ) (value : ν) (rest : List (κ × ν)) :
    ((key, value) :: rest).lookup key = some value := by
  rw [List.lookup_cons, beq_self_eq_true]

theorem lookup_cons_of_ne {entry : κ × ν} (other : key ≠ entry.1) (rest : List (κ × ν)) :
    (entry :: rest).lookup key = rest.lookup key := by
  rw [List.lookup_cons, beq_eq_false_iff_ne.mpr other]

theorem mem_of_lookup {entries : List (κ × ν)} {value : ν} (found : entries.lookup key = some value) :
    (key, value) ∈ entries := by
  obtain ⟨before, after, rfl, -⟩ := List.lookup_eq_some_iff.mp found
  exact List.mem_append_right _ List.mem_cons_self

@[simp] theorem lookup_assign_self (key : κ) (value : ν) (entries : List (κ × ν)) :
    (assign key value entries).lookup key = some value := by
  induction entries with
  | nil => exact lookup_cons_self key value []
  | cons entry rest ih =>
    rw [assign]
    split
    · exact lookup_cons_self key value rest
    · rename_i other
      rw [lookup_cons_of_ne other, ih]

theorem lookup_assign_of_ne {other : κ} (differ : other ≠ key) (value : ν)
    (entries : List (κ × ν)) : (assign key value entries).lookup other = entries.lookup other := by
  induction entries with
  | nil => exact lookup_cons_of_ne differ []
  | cons entry rest ih =>
    rw [assign]
    split
    · rename_i same
      rw [lookup_cons_of_ne differ, lookup_cons_of_ne (same ▸ differ)]
    · by_cases here : other = entry.1
      · rw [lookup_cons_of_eq here, lookup_cons_of_eq here]
      · rw [lookup_cons_of_ne here, lookup_cons_of_ne here, ih]

theorem lookup_assign (key other : κ) (value : ν) (entries : List (κ × ν)) :
    (assign key value entries).lookup other =
      if other = key then some value else entries.lookup other := by
  split
  · rename_i same
    rw [same, lookup_assign_self]
  · rename_i differ
    exact lookup_assign_of_ne differ value entries

end LlamaCpp.Lib
