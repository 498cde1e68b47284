import LlamaCpp.Lib.Assoc

/-!
# Filling a table once

A list of keyed values is worked off in order: a key that is wanted and still empty gets the
value, if the value suits it, and otherwise the run fails.  So a key holds the first value the
list has for it.
-/

set_option autoImplicit false

namespace LlamaCpp.Lib

open Option

variable {κ ν : Type*} [DecidableEq κ] (wanted : κ → Prop) [DecidablePred wanted]
  (suits : κ → ν → Prop) [∀ k v, Decidable (suits k v)]

def fill (table : κ → Option ν) (entry : κ × ν) : Option (κ → Option ν) :=
  if wanted entry.1 ∧ table entry.1 = none then
    if suits entry.1 entry.2 then some (Function.update table entry.1 (some entry.2)) else none
  else some table

def filled (table : κ → Option ν) (entries : List (κ × ν)) (key : κ) : Option ν :=
  if wanted key then (table key).or (entries.lookup key) else table key

variable {wanted suits}

theorem filled_cons_of_kept {table : κ → Option ν} {entry : κ × ν}
    (kept : ¬ (wanted entry.1 ∧ table entry.1 = none)) (entries : List (κ × ν)) :
    filled wanted table (entry :: entries) = filled wanted table entries := by
  funext key
  by_cases here : key = entry.1
  · subst key
    by_cases want : wanted entry.1
    · obtain ⟨value, has⟩ := ne_none_iff_exists'.mp fun empty => kept ⟨want, empty⟩
      simp [filled, has]
    · simp [filled, if_neg want]
  · simp [filled, lookup_cons_of_ne here]

theorem filled_cons_of_taken {table : κ → Option ν} {entry : κ × ν}
    (taken : wanted entry.1 ∧ table entry.1 = none) (entries : List (κ × ν)) :
    filled wanted table (entry :: entries) =
      filled wanted (Function.update table entry.1 (some entry.2)) entries := by
  funext key
  by_cases here : key = entry.1
  · subst key
    simp [filled, if_pos taken.1, taken.2, lookup_cons_of_eq rfl]
  · simp [filled, lookup_cons_of_ne here, Function.update_of_ne here]

theorem fill_run_iff (entries : List (κ × ν)) (table final : κ → Option ν) :
    entries.foldlM (fill wanted suits) table = some final ↔
      (∀ key value, wanted key → table key = none → entries.lookup key = some value →
        suits key value) ∧ final = filled wanted table entries := by
  induction entries generalizing table with
  | nil =>
    have same : filled wanted table [] = table := by
      funext key
      simp [filled]
    rw [same]
    constructor
    · intro done
      exact ⟨fun key value _ _ found => (nomatch found), (some.inj done).symm⟩
    · rintro ⟨-, rfl⟩
      rfl
  | cons entry rest ih =>
    rw [List.foldlM_cons, fill]
    by_cases taken : wanted entry.1 ∧ table entry.1 = none
    · rw [if_pos taken, filled_cons_of_taken taken]
      by_cases fits : suits entry.1 entry.2
      · rw [if_pos fits, bind_eq_bind, bind_some, ih]
        apply and_congr_left'
        constructor
        · intro later key value want empty found
          by_cases here : key = entry.1
          · rw [lookup_cons_of_eq here, some.injEq] at found
            rw [here, ← found]
            exact fits
          · rw [lookup_cons_of_ne here] at found
            exact later key value want ((Function.update_of_ne here _ _).trans empty) found
        · intro all key value want empty found
          have here : key ≠ entry.1 := by
            rintro rfl
            rw [Function.update_self] at empty
            cases empty
          rw [Function.update_of_ne here] at empty
          exact all key value want empty ((lookup_cons_of_ne here rest).trans found)
      · rw [if_neg fits]
        constructor
        · intro impossible
          cases impossible
        · rintro ⟨all, -⟩
          exact absurd (all entry.1 entry.2 taken.1 taken.2 (lookup_cons_of_eq rfl rest)) fits
    · rw [if_neg taken, bind_eq_bind, bind_some, ih, filled_cons_of_kept taken]
      apply and_congr_left'
      constructor
      · intro later key value want empty found
        have here : key ≠ entry.1 := by
          rintro rfl
          exact taken ⟨want, empty⟩
        exact later key value want empty ((lookup_cons_of_ne here rest).symm.trans found)
      · intro all key value want empty found
        have here : key ≠ entry.1 := by
          rintro rfl
          exact taken ⟨want, empty⟩
        exact all key value want empty ((lookup_cons_of_ne here rest).trans found)

end LlamaCpp.Lib
