import LlamaCpp.Lib.Assoc
import LlamaCpp.Lib.Bytes
import Mathlib.Data.List.Infix

/-!
# The naive trie

`naive_trie` maps keys to values; a node holds the value of the path to it.  A trie that some
keys were inserted into has their beginnings as paths, and holds at a key the value that was
inserted last.
-/

set_option autoImplicit false

namespace LlamaCpp.Vocab

open LlamaCpp.Lib List Option

inductive NaiveTrie (α : Type) : Type
  | node (children : List (UInt8 × NaiveTrie α)) (value : Option α)

namespace NaiveTrie

variable {α : Type}

def children : NaiveTrie α → List (UInt8 × NaiveTrie α)
  | node children _ => children

def value : NaiveTrie α → Option α
  | node _ value => value

def empty : NaiveTrie α := node [] none

def traverse (trie : NaiveTrie α) (c : UInt8) : Option (NaiveTrie α) := trie.children.lookup c

def insert : Bytes → α → NaiveTrie α → NaiveTrie α
  | [], value, trie => node trie.children (some value)
  | c :: key, value, trie =>
    node (assign c (((trie.traverse c).getD empty).insert key value) trie.children) trie.value

/-- `naive_trie::get_longest_prefix`: how far a walk along the key gets. -/
def getLongestPrefix : NaiveTrie α → Bytes → Nat → Nat
  | _, [], offset => offset
  | trie, c :: key, offset =>
    match trie.traverse c with
    | some child => child.getLongestPrefix key (offset + 1)
    | none => offset

def descend : NaiveTrie α → Bytes → Option (NaiveTrie α)
  | trie, [] => some trie
  | trie, c :: path => (trie.traverse c).bind fun child => child.descend path

def valueAt (trie : NaiveTrie α) (key : Bytes) : Option α := (trie.descend key).bind value

@[simp] theorem descend_nil (trie : NaiveTrie α) : trie.descend [] = some trie := by
  rfl

@[simp] theorem descend_cons (trie : NaiveTrie α) (c : UInt8) (path : Bytes) :
    trie.descend (c :: path) = (trie.traverse c).bind fun child => child.descend path := by
  rfl

theorem descend_empty (path : Bytes) (longer : path ≠ []) : (empty : NaiveTrie α).descend path = none := by
  cases path with
  | nil => exact absurd rfl longer
  | cons c path => rfl

theorem valueAt_empty (key : Bytes) : (empty : NaiveTrie α).valueAt key = none := by
  cases key with
  | nil => rfl
  | cons c key => rfl

theorem traverse_insert_cons (trie : NaiveTrie α) (c d : UInt8) (key : Bytes) (value : α) :
    (trie.insert (c :: key) value).traverse d =
      if d = c then some (((trie.traverse c).getD empty).insert key value) else trie.traverse d :=
  lookup_assign c d _ _

theorem valueAt_insert (trie : NaiveTrie α) (key other : Bytes) (value : α) :
    (trie.insert key value).valueAt other = if other = key then some value else trie.valueAt other := by
  induction key generalizing trie other with
  | nil =>
    cases other with
    | nil => rfl
    | cons d other => rfl
  | cons c key ih =>
    cases other with
    | nil => rfl
    | cons d other =>
      rw [valueAt, descend_cons, traverse_insert_cons]
      by_cases here : d = c
      · subst d
        have below := ih ((trie.traverse c).getD empty) other
        rw [if_pos rfl, bind_some, ← valueAt, below]
        by_cases same : other = key
        · rw [if_pos same, if_pos (by rw [same])]
        · rw [if_neg same, if_neg fun whole => same (tail_eq_of_cons_eq whole), valueAt,
            valueAt, descend_cons]
          cases trie.traverse c with
          | none => exact valueAt_empty other
          | some child => rfl
      · rw [if_neg here, if_neg fun whole => here (head_eq_of_cons_eq whole), valueAt,
          descend_cons]

theorem descend_insert (trie : NaiveTrie α) (key path : Bytes) (value : α) :
    ((trie.insert key value).descend path).isSome ↔ path <+: key ∨ (trie.descend path).isSome := by
  induction key generalizing trie path with
  | nil =>
    cases path with
    | nil => simp
    | cons d path =>
      have unchanged : (trie.insert [] value).descend (d :: path) = trie.descend (d :: path) := rfl
      simp [unchanged]
  | cons c key ih =>
    cases path with
    | nil => simp
    | cons d path =>
      rw [descend_cons, traverse_insert_cons, cons_prefix_cons, descend_cons]
      by_cases here : d = c
      · subst d
        rw [if_pos rfl, bind_some, ih, and_iff_right rfl]
        cases trie.traverse c with
        | none =>
          by_cases whole : path = []
          · simp [whole]
          · simp [descend_empty path whole]
        | some child => rfl
      · simp [here]

def ofEntries (entries : List (Bytes × α)) : NaiveTrie α :=
  entries.foldl (fun trie entry => trie.insert entry.1 entry.2) empty

theorem ofEntries_concat (entries : List (Bytes × α)) (entry : Bytes × α) :
    ofEntries (entries ++ [entry]) = (ofEntries entries).insert entry.1 entry.2 := by
  rw [ofEntries, foldl_append]
  rfl

def lastValue (entries : List (Bytes × α)) (key : Bytes) : Option α :=
  entries.foldl (fun found entry => if key = entry.1 then some entry.2 else found) none

theorem lastValue_concat (entries : List (Bytes × α)) (entry : Bytes × α) (key : Bytes) :
    lastValue (entries ++ [entry]) key =
      if key = entry.1 then some entry.2 else lastValue entries key := by
  rw [lastValue, foldl_append]
  rfl

theorem lastValue_isSome (entries : List (Bytes × α)) (key : Bytes) :
    (lastValue entries key).isSome ↔ ∃ entry ∈ entries, entry.1 = key := by
  induction entries using List.reverseRecOn with
  | nil => simp [lastValue]
  | append_singleton entries entry ih =>
    rw [lastValue_concat]
    by_cases same : key = entry.1
    · simp [same]
    · simp [same, ih, Ne.symm same]

theorem mem_of_lastValue {entries : List (Bytes × α)} {key : Bytes} {value : α}
    (last : lastValue entries key = some value) : (key, value) ∈ entries := by
  induction entries using List.reverseRecOn with
  | nil => contradiction
  | append_singleton entries entry ih =>
    rw [lastValue_concat] at last
    split at last
    · rename_i same
      cases last
      rw [same]
      exact mem_append_right _ (mem_singleton_self _)
    · exact mem_append_left _ (ih last)

theorem valueAt_ofEntries (entries : List (Bytes × α)) (key : Bytes) :
    (ofEntries entries).valueAt key = lastValue entries key := by
  induction entries using List.reverseRecOn with
  | nil => exact valueAt_empty key
  | append_singleton entries entry ih => rw [ofEntries_concat, valueAt_insert, ih, lastValue_concat]

theorem descend_ofEntries (entries : List (Bytes × α)) (path : Bytes) :
    ((ofEntries entries).descend path).isSome ↔ path = [] ∨ ∃ entry ∈ entries, path <+: entry.1 := by
  induction entries using List.reverseRecOn with
  | nil =>
    by_cases whole : path = []
    · simp [whole]
    · simp [whole, ofEntries, descend_empty path whole]
  | append_singleton entries entry ih =>
    rw [ofEntries_concat, descend_insert, ih]
    simp only [mem_append, mem_singleton, or_and_right, exists_or, exists_eq_left]
    rw [or_left_comm, or_comm (a := path <+: entry.1)]

theorem getLongestPrefix_spec (trie : NaiveTrie α) (key : Bytes) (offset : Nat) :
    ∃ reached, trie.getLongestPrefix key offset = offset + reached ∧ reached ≤ key.length ∧
      ∀ n, n ≤ key.length → ((trie.descend (key.take n)).isSome ↔ n ≤ reached) := by
  induction key generalizing trie offset with
  | nil =>
    refine ⟨0, rfl, le_refl 0, fun n inside => ?_⟩
    simpa using inside
  | cons c key ih =>
    cases step : trie.traverse c with
    | none =>
      refine ⟨0, ?_, Nat.zero_le _, fun n inside => ?_⟩
      · simp [getLongestPrefix, step]
      · cases n with
        | zero => simp
        | succ n => simp [step]
    | some child =>
      obtain ⟨reached, found, inside, path⟩ := ih child (offset + 1)
      refine ⟨reached + 1, ?_, Nat.succ_le_succ inside, fun n bound => ?_⟩
      · simp only [getLongestPrefix, step]
        omega
      · cases n with
        | zero => simp
        | succ n =>
          rw [take_succ_cons, descend_cons, step, bind_some,
            path n (Nat.le_of_succ_le_succ bound), Nat.succ_le_succ_iff]

end NaiveTrie

end LlamaCpp.Vocab
