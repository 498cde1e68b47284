import Mathlib.Data.Nat.Basic
import Mathlib.Tactic.Common

/-!
# Sets of indices as bits, and their runs

A set of numbers is packed into 32-bit words.  Two scans, one for the next member
and one for the next number that is none, cut the members below a bound into
runs of consecutive numbers.
-/

set_option autoImplicit false

namespace LlamaCpp.Lib

open List

/-- `words[id >> 5] |= 1u << (id & 31)` -/
def setBit (words : List (BitVec 32)) (id : Nat) : List (BitVec 32) :=
  words.modify (id / 32) fun word => word ||| 1#32 <<< (id % 32)

/-- `(words[id >> 5] & (1u << (id & 31))) != 0` -/
def getBit (words : List (BitVec 32)) (id : Nat) : Bool :=
  words.getD (id / 32) 0#32 &&& 1#32 <<< (id % 32) ≠ 0#32

theorem and_one_shiftLeft_ne_zero (word : BitVec 32) {i : Nat} (inside : i < 32) :
    (word &&& 1#32 <<< i ≠ 0#32) ↔ word.getLsbD i = true := by
  constructor
  · intro nonzero
    by_contra unset
    refine nonzero (BitVec.eq_of_getLsbD_eq fun k _ => ?_)
    by_cases same : k = i
    · simp [same, unset]
    · have apart : k < i ∨ 0 < k - i := by omega
      rcases apart with below | above
      · simp [below]
      · simp [ne_of_gt above]
  · intro set zero
    have bit := congrArg (·.getLsbD i) zero
    simp only [BitVec.getLsbD_and, set] at bit
    simp [inside] at bit

theorem getBit_eq_getLsbD (words : List (BitVec 32)) (id : Nat) :
    getBit words id = (words.getD (id / 32) 0#32).getLsbD (id % 32) := by
  have inside : id % 32 < 32 := Nat.mod_lt _ (by decide)
  rw [Bool.eq_iff_iff, getBit, decide_eq_true_eq]
  exact and_one_shiftLeft_ne_zero _ inside

theorem length_setBit (words : List (BitVec 32)) (id : Nat) :
    (setBit words id).length = words.length := length_modify ..

theorem getBit_setBit {words : List (BitVec 32)} {id : Nat} (inside : id / 32 < words.length)
    (other : Nat) : getBit (setBit words id) other = (getBit words other || decide (other = id)) := by
  rw [getBit_eq_getLsbD, getBit_eq_getLsbD, setBit, getD_eq_getElem?_getD, List.getElem?_modify,
    getD_eq_getElem?_getD]
  by_cases sameWord : id / 32 = other / 32
  · rw [← sameWord, List.getElem?_eq_getElem inside]
    have sameBit : other = id ↔ other % 32 = id % 32 := by omega
    by_cases same : other % 32 = id % 32
    · simp [sameBit.mpr same, Nat.mod_lt]
    · have different : other ≠ id := fun equal => same (sameBit.mp equal)
      have apart : other % 32 < id % 32 ∨ 0 < other % 32 - id % 32 := by omega
      rcases apart with below | above
      · simp [below, different]
      · simp [Nat.ne_of_gt above, different]
  · have different : other ≠ id := fun equal => sameWord (by rw [equal])
    simp [sameWord, different]

theorem getBit_replicate (count id : Nat) : getBit (List.replicate count 0#32) id = false := by
  rw [getBit_eq_getLsbD, getD_eq_getElem?_getD, List.getElem?_replicate]
  split <;> simp

theorem getBit_foldl_setBit {words : List (BitVec 32)} (ids : List Nat)
    (inside : ∀ id ∈ ids, id / 32 < words.length) (other : Nat) :
    getBit (ids.foldl setBit words) other = (getBit words other || decide (other ∈ ids)) := by
  induction ids generalizing words with
  | nil => simp
  | cons id rest ih =>
    have tail : ∀ later ∈ rest, later / 32 < (setBit words id).length := fun later member => by
      rw [length_setBit]
      exact inside later (mem_cons_of_mem _ member)
    rw [foldl_cons, ih tail, getBit_setBit (inside id mem_cons_self), Bool.or_assoc]
    simp [Bool.decide_or]

/-- `while (id < n && p(id)) ++id;` with the number of steps that are left. -/
def skipWhile (p : Nat → Bool) (n : Nat) : Nat → Nat → Nat
  | 0, id => id
  | steps + 1, id => if id < n && p id then skipWhile p n steps (id + 1) else id

theorem skipWhile_spec {p : Nat → Bool} {n : Nat} (steps id : Nat) (enough : n ≤ id + steps)
    (below : id ≤ n) :
    id ≤ skipWhile p n steps id ∧ skipWhile p n steps id ≤ n ∧
      (∀ k, id ≤ k → k < skipWhile p n steps id → p k = true) ∧
      (skipWhile p n steps id < n → p (skipWhile p n steps id) = false) := by
  induction steps generalizing id with
  | zero =>
    refine ⟨le_refl _, below, fun k first last => ?_, fun inside => ?_⟩
    · exact absurd last (not_lt.mpr first)
    · simp only [skipWhile] at inside
      omega
  | succ steps ih =>
    rw [skipWhile]
    split
    · rename_i goes
      simp only [Bool.and_eq_true, decide_eq_true_eq] at goes
      obtain ⟨grows, bounded, skipped, stops⟩ := ih (id + 1) (by omega) (by omega)
      refine ⟨by omega, bounded, fun k first last => ?_, stops⟩
      rcases Nat.eq_or_lt_of_le first with same | later
      · rw [← same]
        exact goes.2
      · exact skipped k later last
    · rename_i stays
      refine ⟨le_refl _, below, fun k first last => absurd last (not_lt.mpr first), ?_⟩
      intro inside
      cases value : p id with
      | false => rfl
      | true => exact absurd (by simp [inside, value]) stays

/-- The runs of members of `p` below `n`, as first and last number, from a member on. -/
def memberRuns (p : Nat → Bool) (n : Nat) : Nat → Nat → List (Nat × Nat)
  | 0, _ => []
  | steps + 1, first =>
    if first < n then
      let last := skipWhile p n (n - (first + 1)) (first + 1)
      (first, last - 1) :: memberRuns p n steps (skipWhile (fun k => !p k) n (n - last) last)
    else []

variable {p : Nat → Bool} {n : Nat}

theorem memberRuns_sound {steps first a b : Nat} (start : first < n → p first = true)
    (member : (a, b) ∈ memberRuns p n steps first) :
    a ≤ b ∧ b < n ∧ (∀ k, a ≤ k → k ≤ b → p k = true) ∧ (b + 1 < n → p (b + 1) = false) := by
  induction steps generalizing first with
  | zero => simp [memberRuns] at member
  | succ steps ih =>
    rw [memberRuns] at member
    split at member
    · rename_i inside
      obtain ⟨grows, bounded, members, stops⟩ :=
        skipWhile_spec (n := n) (n - (first + 1)) (first + 1) (by omega) (by omega)
      obtain ⟨-, -, -, lands⟩ := skipWhile_spec
        (n - skipWhile p n (n - (first + 1)) (first + 1))
        (skipWhile p n (n - (first + 1)) (first + 1)) (by omega) bounded
      rcases mem_cons.mp member with here | later
      · obtain ⟨rfl, rfl⟩ := Prod.mk.inj here
        refine ⟨by omega, by omega, fun k low high => ?_, fun next => ?_⟩
        · rcases Nat.eq_or_lt_of_le low with same | above
          · rw [← same]
            exact start inside
          · exact members k above (by omega)
        · rw [Nat.sub_add_cancel (by omega)] at next ⊢
          exact stops next
      · exact ih (fun below => by simpa using lands below) later
    · cases member

theorem memberRuns_complete {steps first k : Nat} (enough : n ≤ first + steps)
    (from_ : first ≤ k) (inside : k < n) (member : p k = true) :
    ∃ a b, (a, b) ∈ memberRuns p n steps first ∧ a ≤ k ∧ k ≤ b := by
  induction steps generalizing first with
  | zero => omega
  | succ steps ih =>
    have here : first < n := by omega
    rw [memberRuns, if_pos here]
    obtain ⟨grows, bounded, members, stops⟩ :=
      skipWhile_spec (n := n) (n - (first + 1)) (first + 1) (by omega) (by omega)
    by_cases within : k < skipWhile p n (n - (first + 1)) (first + 1)
    · exact ⟨first, _, mem_cons_self, from_, by omega⟩
    · obtain ⟨after, -, skipped, -⟩ := skipWhile_spec (p := fun k => !p k)
        (n - skipWhile p n (n - (first + 1)) (first + 1))
        (skipWhile p n (n - (first + 1)) (first + 1)) (by omega) bounded
      have reached : skipWhile (fun k => !p k) n (n - skipWhile p n (n - (first + 1)) (first + 1))
          (skipWhile p n (n - (first + 1)) (first + 1)) ≤ k := by
        by_contra beyond
        have none := skipped k (by omega) (by omega)
        simp [member] at none
      obtain ⟨a, b, later, low, high⟩ := ih (by omega) reached
      exact ⟨a, b, mem_cons_of_mem _ later, low, high⟩

def runsBelow (p : Nat → Bool) (n : Nat) : List (Nat × Nat) :=
  memberRuns p n n (skipWhile (fun k => !p k) n n 0)

theorem runsBelow_sound {a b : Nat} (member : (a, b) ∈ runsBelow p n) :
    a ≤ b ∧ b < n ∧ (∀ k, a ≤ k → k ≤ b → p k = true) ∧ (b + 1 < n → p (b + 1) = false) := by
  obtain ⟨-, -, -, lands⟩ := skipWhile_spec (n := n) n 0 (by omega) (Nat.zero_le _)
  exact memberRuns_sound (fun below => by simpa using lands below) member

theorem runsBelow_complete {k : Nat} (inside : k < n) (member : p k = true) :
    ∃ a b, (a, b) ∈ runsBelow p n ∧ a ≤ k ∧ k ≤ b := by
  obtain ⟨-, -, skipped, -⟩ := skipWhile_spec (p := fun k => !p k) (n := n) n 0 (by omega)
    (Nat.zero_le _)
  refine memberRuns_complete (by omega) ?_ inside member
  by_contra beyond
  have none := skipped k (Nat.zero_le _) (by omega)
  simp [member] at none

end LlamaCpp.Lib
