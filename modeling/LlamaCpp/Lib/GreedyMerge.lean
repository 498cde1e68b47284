import Mathlib.Data.List.Chain
import Mathlib.Order.Lattice

/-!
# Greedy merging of neighbours

A key says which pairs of neighbours in a list can be joined and in what order: the pair of the
least key goes first, the leftmost one on ties.  Joining goes on until no pair has a key.
-/

set_option autoImplicit false

namespace LlamaCpp.Lib

open List

section

variable {α K : Type*} [LinearOrder K] (key : List α → List α → Option K)

def bestPair : List (List α) → Option (Nat × K)
  | [] => none
  | [_] => none
  | left :: right :: rest =>
    match key left right, bestPair (right :: rest) with
    | none, none => none
    | none, some (p, k) => some (p + 1, k)
    | some k, none => some (0, k)
    | some k, some (p, other) => if other < k then some (p + 1, other) else some (0, k)

def joinAt : Nat → List (List α) → List (List α)
  | 0, left :: right :: rest => (left ++ right) :: rest
  | p + 1, first :: rest => first :: joinAt p rest
  | _, texts => texts

def mergeGreedily : Nat → List (List α) → List (List α)
  | 0, texts => texts
  | fuel + 1, texts =>
    match bestPair key texts with
    | none => texts
    | some (p, _) => mergeGreedily fuel (joinAt p texts)

def naiveMerge (texts : List (List α)) : List (List α) := mergeGreedily key texts.length texts

variable {key}

variable {texts : List (List α)} {k : K}

theorem bestPair_eq_none :
    bestPair key texts = none ↔ texts.IsChain fun left right => key left right = none := by
  induction texts with
  | nil => exact iff_of_true rfl .nil
  | cons left rest ih =>
    cases rest with
    | nil => exact iff_of_true rfl (.singleton left)
    | cons right rest =>
      rw [bestPair, isChain_cons_cons, ← ih]
      cases here : key left right <;> cases beyond : bestPair key (right :: rest)
      · simp
      · simp
      · simp
      · dsimp only
        split <;> simp

def NoneBelow (key : List α → List α → Option K) (k : K) (texts : List (List α)) : Prop :=
  texts.IsChain fun left right => ∀ other, key left right = some other → k ≤ other

theorem bestPair_ge (low : NoneBelow key k texts) {p : Nat} {other : K}
    (best : bestPair key texts = some (p, other)) : k ≤ other := by
  induction texts generalizing p with
  | nil => contradiction
  | cons left rest ih =>
    cases rest with
    | nil => contradiction
    | cons right rest =>
      obtain ⟨head, tail⟩ := isChain_cons_cons.mp low
      rw [bestPair] at best
      cases here : key left right <;> cases beyond : bestPair key (right :: rest) <;>
        simp only [here, beyond] at best
      · contradiction
      · cases best
        exact ih tail beyond
      · cases best
        exact head _ here
      · split at best
        · cases best
          exact ih tail beyond
        · cases best
          exact head _ here

theorem bestPair_between {front back : List (List α)} {left right : List α}
    (here : key left right = some k)
    (before : (front ++ [left]).IsChain fun one two => ∀ other, key one two = some other → k < other)
    (beyond : NoneBelow key k (right :: back)) :
    bestPair key (front ++ left :: right :: back) = some (front.length, k) := by
  induction front with
  | nil =>
    rw [nil_append, bestPair, here]
    cases later : bestPair key (right :: back) with
    | none => rfl
    | some found =>
      exact if_neg (not_lt_of_ge (bestPair_ge beyond later))
  | cons first front ih =>
    obtain ⟨second, others, tail⟩ : ∃ second others, front ++ [left] = second :: others := by
      cases front with
      | nil => exact ⟨left, [], rfl⟩
      | cons second others => exact ⟨second, others ++ [left], rfl⟩
    have whole : front ++ left :: right :: back = second :: (others ++ right :: back) := by
      rw [← cons_append, ← tail, append_assoc]
      rfl
    rw [cons_append, tail, isChain_cons_cons, ← tail] at before
    rw [whole] at ih
    rw [cons_append, whole, bestPair, ih before.2]
    cases first_ : key first second with
    | none => rfl
    | some other => exact if_pos (before.1 other first_)

theorem joinAt_between (front back : List (List α)) (left right : List α) :
    joinAt front.length (front ++ left :: right :: back) = front ++ (left ++ right) :: back := by
  induction front with
  | nil => rfl
  | cons first front ih => exact congrArg (first :: ·) ih

theorem naiveMerge_between {front back : List (List α)} {left right : List α}
    (best : bestPair key (front ++ left :: right :: back) = some (front.length, k)) :
    naiveMerge key (front ++ left :: right :: back) =
      naiveMerge key (front ++ (left ++ right) :: back) := by
  have length : (front ++ left :: right :: back).length =
      (front ++ (left ++ right) :: back).length + 1 := by
    simp only [length_append, length_cons]
    omega
  rw [naiveMerge, length, mergeGreedily, best]
  dsimp only
  rw [joinAt_between, naiveMerge]

theorem naiveMerge_of_done (done : texts.IsChain fun left right => key left right = none) :
    naiveMerge key texts = texts := by
  rw [naiveMerge]
  cases texts.length with
  | zero => rfl
  | succ fuel => rw [mergeGreedily, bestPair_eq_none.mpr done]

end

section

variable {α : Type*} (before : α → α → Bool)

def popFirst : List α → Option (α × List α)
  | [] => none
  | item :: rest =>
    match popFirst rest with
    | some (best, others) =>
      if before best item then some (best, item :: others) else some (item, rest)
    | none => some (item, [])

variable {before}

variable {queue : List α}

theorem popFirst_none (popped : popFirst before queue = none) : queue = [] := by
  cases queue with
  | nil => rfl
  | cons item rest =>
    rw [popFirst] at popped
    split at popped
    · split at popped <;> contradiction
    · contradiction

theorem popFirst_perm {others : List α} {item : α}
    (popped : popFirst before queue = some (item, others)) : (item :: others).Perm queue := by
  induction queue generalizing others with
  | nil => contradiction
  | cons first rest ih =>
    rw [popFirst] at popped
    cases inner : popFirst before rest with
    | none =>
      rw [inner] at popped
      cases popped
      rw [popFirst_none inner]
    | some found =>
      rw [inner] at popped
      dsimp only at popped
      split at popped
      · cases popped
        exact (List.Perm.swap _ _ _).trans ((ih inner).cons first)
      · cases popped
        exact List.Perm.refl _

theorem popFirst_best (asymm : ∀ a b, before a b = true → before b a = false)
    (trans : ∀ a b c, before a b = false → before b c = false → before a c = false)
    {others : List α} {item : α} (popped : popFirst before queue = some (item, others)) :
    ∀ other ∈ queue, before other item = false := by
  have irrefl (a : α) : before a a = false := by
    by_contra earlier
    exact earlier (asymm a a (Bool.not_eq_false _ ▸ earlier))
  induction queue generalizing item others with
  | nil => contradiction
  | cons first rest ih =>
    rw [popFirst] at popped
    cases inner : popFirst before rest with
    | none =>
      rw [inner] at popped
      cases popped
      rw [popFirst_none inner]
      intro other member
      rw [mem_singleton.mp member]
      exact irrefl first
    | some found =>
      rw [inner] at popped
      dsimp only at popped
      split at popped
      · rename_i earlier
        cases popped
        intro other member
        rcases mem_cons.mp member with isFirst | inRest
        · rw [isFirst]
          exact asymm _ _ earlier
        · exact ih inner other inRest
      · rename_i later
        cases popped
        intro other member
        rcases mem_cons.mp member with isFirst | inRest
        · rw [isFirst]
          exact irrefl first
        · exact trans _ _ _ (ih inner other inRest) (Bool.not_eq_true _ ▸ later)

end

end LlamaCpp.Lib
