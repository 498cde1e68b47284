import Mathlib.Data.Int.ModEq

/-!
# Writing rows at given places

`scatter target writes` makes the writes in order, each at the place it names.  What a
place holds afterwards depends only on the writes that name it, so two lists of writes
that agree place by place leave the same rows, in whatever order.

The last section is about the slots `offset + pos % size` of ring buffers laid one after
another: positions less than one turn apart have different slots, and two rings share none.
-/

set_option autoImplicit false

namespace LlamaCpp.Lib

open List

variable {κ α : Type*} [DecidableEq κ]

def scatter (target : κ → α) (writes : List (κ × α)) : κ → α :=
  writes.foldl (fun current write => Function.update current write.1 write.2) target

theorem scatter_cons (target : κ → α) (write : κ × α) (rest : List (κ × α)) :
    scatter target (write :: rest) = scatter (Function.update target write.1 write.2) rest := rfl

variable {target : κ → α} {writes : List (κ × α)}

theorem scatter_untouched {place : κ} (untouched : ∀ write ∈ writes, write.1 ≠ place) :
    scatter target writes place = target place := by
  induction writes generalizing target with
  | nil => rfl
  | cons write rest ih =>
    have other : place ≠ write.1 := (untouched write mem_cons_self).symm
    rw [scatter_cons, ih fun later member => untouched later (mem_cons_of_mem _ member)]
    exact Function.update_of_ne other _ _

theorem scatter_agreed {place : κ} {value : α} (written : ∃ write ∈ writes, write.1 = place)
    (agreed : ∀ write ∈ writes, write.1 = place → write.2 = value) :
    scatter target writes place = value := by
  induction writes generalizing target with
  | nil => simp at written
  | cons write rest ih =>
    rw [scatter_cons]
    have agreedRest : ∀ later ∈ rest, later.1 = place → later.2 = value :=
      fun later member => agreed later (mem_cons_of_mem _ member)
    by_cases again : ∃ later ∈ rest, later.1 = place
    · exact ih again agreedRest
    · have last : ∀ later ∈ rest, later.1 ≠ place := by
        intro later member same
        exact again ⟨later, member, same⟩
      obtain ⟨hit, member, same⟩ := written
      rcases mem_cons.mp member with rfl | inRest
      · rw [scatter_untouched last, same.symm, Function.update_self]
        exact agreed _ mem_cons_self same
      · exact absurd same (last hit inRest)

theorem scatter_congr {others : List (κ × α)} (same : ∀ write, write ∈ writes ↔ write ∈ others)
    (single : ∀ write ∈ others, ∀ other ∈ others, write.1 = other.1 → write.2 = other.2) :
    scatter target writes = scatter target others := by
  funext place
  by_cases hit : ∃ write ∈ others, write.1 = place
  · obtain ⟨write, member, atPlace⟩ := hit
    have agreed : ∀ other ∈ others, other.1 = place → other.2 = write.2 := by
      intro other inOthers otherPlace
      exact single other inOthers write member (otherPlace.trans atPlace.symm)
    rw [scatter_agreed ⟨write, member, atPlace⟩ agreed,
      scatter_agreed ⟨write, (same write).mpr member, atPlace⟩
        fun other inWrites => agreed other ((same other).mp inWrites)]
  · have missed : ∀ write ∈ others, write.1 ≠ place := by
      intro write member atPlace
      exact hit ⟨write, member, atPlace⟩
    rw [scatter_untouched missed,
      scatter_untouched fun write member => missed write ((same write).mp member)]

section Each

variable {ι : Type*}

def updateEach (change : κ → ι → α → Option α) (target : κ → α) (entries : List (κ × ι)) :
    Option (κ → α) :=
  entries.foldlM
    (fun current entry => (change entry.1 entry.2 (current entry.1)).map
      (Function.update current entry.1)) target

theorem updateEach_eq_some (change : κ → ι → α → Option α) (value : κ → α)
    (entries : List (κ × ι)) (distinct : (entries.map Prod.fst).Nodup) (target : κ → α)
    (changes : ∀ entry ∈ entries,
      change entry.1 entry.2 (target entry.1) = some (value entry.1)) :
    ∃ result, updateEach change target entries = some result ∧
      (∀ key ∈ entries.map Prod.fst, result key = value key) ∧
      ∀ key, key ∉ entries.map Prod.fst → result key = target key := by
  induction entries generalizing target with
  | nil => exact ⟨target, rfl, by simp, fun _ _ => rfl⟩
  | cons entry rest ih =>
    rw [map_cons, nodup_cons] at distinct
    have changed := changes entry mem_cons_self
    obtain ⟨result, updated, inside, outside⟩ :=
      ih distinct.2 (Function.update target entry.1 (value entry.1)) (by
        intro later member
        have other : later.1 ≠ entry.1 := fun same =>
          distinct.1 (same ▸ mem_map_of_mem member)
        rw [Function.update_of_ne other]
        exact changes later (mem_cons_of_mem _ member))
    refine ⟨result, ?_, ?_, ?_⟩
    · rw [updateEach, foldlM_cons, changed]
      exact updated
    · intro key member
      rcases mem_cons.mp member with rfl | inRest
      · rw [outside entry.1 distinct.1, Function.update_self]
      · exact inside key inRest
    · intro key absent
      rw [map_cons, mem_cons, not_or] at absent
      rw [outside key absent.2, Function.update_of_ne absent.1]

omit [DecidableEq κ] in
theorem foldlM_groups_eq_some {γ : Type*} {step : γ → (κ → α) → Option (κ → α)}
    {keys : γ → List κ} (value : κ → α) (groups : List γ)
    (apart : groups.Pairwise fun first second => ∀ key ∈ keys first, key ∉ keys second)
    (target : κ → α)
    (each : ∀ group ∈ groups, ∀ current, (∀ key ∈ keys group, current key = target key) →
      ∃ next, step group current = some next ∧ (∀ key ∈ keys group, next key = value key) ∧
        ∀ key, key ∉ keys group → next key = current key) :
    ∃ result, groups.foldlM (fun current group => step group current) target = some result ∧
      (∀ group ∈ groups, ∀ key ∈ keys group, result key = value key) ∧
      ∀ key, (∀ group ∈ groups, key ∉ keys group) → result key = target key := by
  induction groups generalizing target with
  | nil => exact ⟨target, rfl, by simp, fun _ _ => rfl⟩
  | cons group rest ih =>
    rw [pairwise_cons] at apart
    obtain ⟨next, stepped, changed, kept⟩ :=
      each group mem_cons_self target fun _ _ => rfl
    have untouched : ∀ later ∈ rest, ∀ key ∈ keys later, next key = target key := by
      intro later member key inLater
      exact kept key fun inGroup => apart.1 later member key inGroup inLater
    obtain ⟨result, ran, inside, outside⟩ := ih apart.2 next (by
      intro later member current same
      exact each later (mem_cons_of_mem _ member) current fun key inLater =>
        (same key inLater).trans (untouched later member key inLater))
    refine ⟨result, ?_, ?_, ?_⟩
    · rw [foldlM_cons, stepped]
      exact ran
    · intro later member key inLater
      rcases mem_cons.mp member with rfl | inRest
      · rw [outside key fun other inRest => apart.1 other inRest key inLater]
        exact changed key inLater
      · exact inside later inRest key inLater
    · intro key absent
      rw [outside key fun other inRest => absent other (mem_cons_of_mem _ inRest)]
      exact kept key (absent group mem_cons_self)

end Each

section Slots

theorem slot_injective {size pos other : Int} (near : pos < other + size)
    (near' : other < pos + size) (slot : pos % size = other % size) : pos = other := by
  have divides : size ∣ other - pos := Int.ModEq.dvd slot
  have small : |other - pos| < size := by
    rw [abs_lt]
    omega
  have equal := Int.eq_zero_of_abs_lt_dvd divides small
  omega

theorem ring_injective {size ring other slot slot' : Int} (positive : 0 < size)
    (slotInside : 0 ≤ slot ∧ slot < size) (slotInside' : 0 ≤ slot' ∧ slot' < size)
    (same : ring * size + slot = other * size + slot') : ring = other ∧ slot = slot' := by
  have rings : ring = other := by
    have left : (ring * size + slot) / size = ring := by
      rw [Int.add_comm, Int.add_mul_ediv_right _ _ positive.ne',
        Int.ediv_eq_zero_of_lt slotInside.1 slotInside.2, Int.zero_add]
    have right : (other * size + slot') / size = other := by
      rw [Int.add_comm, Int.add_mul_ediv_right _ _ positive.ne',
        Int.ediv_eq_zero_of_lt slotInside'.1 slotInside'.2, Int.zero_add]
    rw [← left, same, right]
  subst rings
  exact ⟨rfl, by omega⟩

end Slots

end LlamaCpp.Lib
