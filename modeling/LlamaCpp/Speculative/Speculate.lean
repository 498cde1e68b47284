import LlamaCpp.Speculative.SuffixTree
import Mathlib.Data.List.DropRight

/-!
# Drafts from the suffix tree

A draft continues a match of the end of the context along the fullest children.  A path of the
tree is a stretch of the history, so match and draft together are one, no deeper than the tree.
-/

set_option autoImplicit false

namespace LlamaCpp.Speculative

open LlamaCpp.Lib List Option

/-- The order in which a hash map yields its entries. -/
structure MapOrder where
  visit : List (Token × SuffixNode) → List (Token × SuffixNode)
  perm : ∀ children, visit children ~ children

/-- The loop that picks the child with the highest count; `-1` when none has one. -/
def bestChild (children : List (Token × SuffixNode)) : Token × Nat :=
  children.foldl (fun best entry =>
    if best.2 < entry.2.count then (entry.1, entry.2.count) else best) (-1, 0)

structure SpeculateParams (F : Type) where
  maxSpecTokens : Int
  minTokenProb : F
  minMatchCount : Int
  minMatchLen : Int

namespace SuffixTree

section Loops

variable {F : Type} [Zero F] [One F] [Add F] [Mul F] [Div F] [NatCast F] [LT F] [DecidableLT F]

/-- The greedy walk: the draft with its score, or `none` where `children.at` throws. -/
def greedyDraft (order : MapOrder) (minTokenProb : F) :
    Nat → SuffixNode → F → F → Option (List Token × F)
  | 0, _, _, score => some ([], score)
  | limit + 1, cur, prob, score =>
    if cur.children.isEmpty then some ([], score)
    else
      let best := bestChild (order.visit cur.children)
      let prob := prob * ((best.2 : F) / (cur.count : F))
      if prob < minTokenProb then some ([], score)
      else (cur.children.lookup best.1).bind fun child =>
        (greedyDraft order minTokenProb limit child prob (score + prob)).map
          fun (draft, score) => (best.1 :: draft, score)

def draftLimit (params : SpeculateParams F) (matchLen : Nat) : Int :=
  min params.maxSpecTokens (matchLen + 8)

/-- The loop over the match lengths, with the best draft so far and its score. -/
def tryLengths (order : MapOrder) (params : SpeculateParams F) (root : SuffixNode)
    (context : List Token) : List Nat → List Token → F → Option (List Token)
  | [], bestDraft, _ => some bestDraft
  | matchLen :: more, bestDraft, bestScore =>
    match root.find (context.rtake matchLen) with
    | none => some bestDraft
    | some node =>
      if (node.count : Int) < params.minMatchCount ∨ node.children.isEmpty then
        tryLengths order params root context more bestDraft bestScore
      else (greedyDraft order params.minTokenProb (draftLimit params matchLen).toNat node 1 0).bind
        fun (draft, score) =>
          if bestScore < score ∧ draft ≠ [] then
            tryLengths order params root context more draft score
          else tryLengths order params root context more bestDraft bestScore

def speculate (tree : SuffixTree) (order : MapOrder) (params : SpeculateParams F)
    (context : List Token) : Option (List Token) :=
  if context.length = 0 ∨ params.maxSpecTokens ≤ 0 then some []
  else
    let context := if tree.maxDepth < context.length then context.rtake tree.maxDepth else context
    let least := (max 1 params.minMatchLen).toNat
    tryLengths order params tree.root context (List.range' least (context.length + 1 - least)) [] 0

end Loops

end SuffixTree

theorem SuffixNode.find_append (node : SuffixNode) (path more : List Token) :
    node.find (path ++ more) = (node.find path).bind fun below => below.find more := by
  induction path generalizing node with
  | nil => rfl
  | cons tok path ih =>
    rw [cons_append, find, find]
    cases node.children.lookup tok with
    | none => rfl
    | some child => exact ih child

namespace SuffixTree

variable {tree : SuffixTree}

theorem rtake_rtake {context : List Token} {short long : Nat} (le : short ≤ long) :
    (context.rtake long).rtake short = context.rtake short := by
  rw [rtake, rtake, length_drop, drop_drop]
  congr 1
  omega

theorem length_rtake (context : List Token) (n : Nat) :
    (context.rtake n).length = min n context.length := by
  rw [rtake, length_drop]
  omega

/-- A longer match holds the shorter one, so none is lost behind the first length without a match. -/
theorem HoldsHistory.no_longer_match (holds : HoldsHistory tree) (context : List Token)
    {short long : Nat} (le : short ≤ long) (none_ : tree.root.find (context.rtake short) = none) :
    tree.root.find (context.rtake long) = none := by
  have shorter : context.rtake short <:+ context.rtake long :=
    drop_suffix_drop_left context (by omega)
  have below : context.rtake short ≠ [] := by
    intro empty
    rw [empty] at none_
    cases none_
  have below' : context.rtake long ≠ [] := fun empty => below (suffix_nil.mp (empty ▸ shorter))
  by_contra some_
  obtain ⟨occurs, depth⟩ := (holds.find_isSome_iff below').mp (isSome_iff_ne_none.mpr some_)
  have found := (holds.find_isSome_iff below).mpr
    ⟨shorter.isInfix.trans occurs, shorter.length_le.trans depth⟩
  rw [none_] at found
  cases found

variable {F : Type} [Zero F] [One F] [Add F] [Mul F] [Div F] [NatCast F] [LT F] [DecidableLT F]
  {order : MapOrder} {params : SpeculateParams F}

omit [Zero F] [One F] in
theorem greedyDraft_path {minTokenProb : F} {limit : Nat} {cur : SuffixNode} {prob score : F}
    {result : List Token × F} (walked : greedyDraft order minTokenProb limit cur prob score =
      some result) : (cur.find result.1).isSome ∧ result.1.length ≤ limit := by
  induction limit generalizing cur prob score result with
  | zero =>
    cases walked
    exact ⟨rfl, le_refl _⟩
  | succ limit ih =>
    rw [greedyDraft] at walked
    split at walked
    · cases walked
      exact ⟨rfl, Nat.zero_le _⟩
    · dsimp only at walked
      split at walked
      · cases walked
        exact ⟨rfl, Nat.zero_le _⟩
      · obtain ⟨child, entry, rest⟩ := bind_eq_some_iff.mp walked
        obtain ⟨below, walkedBelow, rfl⟩ := map_eq_some_iff.mp rest
        obtain ⟨found, short⟩ := ih walkedBelow
        refine ⟨?_, Nat.succ_le_succ short⟩
        rw [SuffixNode.find, entry]
        exact found

/-- What a draft that the loop returns comes from. -/
def IsDraft (params : SpeculateParams F) (root : SuffixNode) (context draft : List Token)
    (matchLen : Nat) : Prop :=
  ∃ node, root.find (context.rtake matchLen) = some node ∧
    params.minMatchCount ≤ node.count ∧ (node.find draft).isSome ∧
      draft.length ≤ (draftLimit params matchLen).toNat

theorem tryLengths_isDraft {root : SuffixNode} {context : List Token} {lengths : List Nat}
    {bestDraft draft : List Token} {bestScore : F}
    (tried : tryLengths order params root context lengths bestDraft bestScore = some draft) :
    draft = bestDraft ∨ ∃ matchLen ∈ lengths, IsDraft params root context draft matchLen := by
  induction lengths generalizing bestDraft bestScore with
  | nil => exact Or.inl (some.inj tried).symm
  | cons matchLen more ih =>
    have later : ∀ {earlier : List Token} {score : F},
        tryLengths order params root context more earlier score = some draft →
          draft = earlier ∨ ∃ l ∈ matchLen :: more, IsDraft params root context draft l :=
      fun rest => (ih rest).imp_right fun ⟨l, member, made⟩ => ⟨l, mem_cons_of_mem _ member, made⟩
    rw [tryLengths] at tried
    split at tried
    · exact Or.inl (some.inj tried).symm
    · rename_i node found
      split at tried
      · exact later tried
      · rename_i usable
        obtain ⟨result, walked, rest⟩ := bind_eq_some_iff.mp tried
        dsimp only at rest
        split at rest
        · rcases later rest with same | other
          · obtain ⟨path, short⟩ := greedyDraft_path walked
            refine Or.inr ⟨matchLen, mem_cons_self, node, found, ?_, same ▸ path, same ▸ short⟩
            exact not_lt.mp fun few => usable (Or.inl few)
          · exact Or.inr other
        · exact later rest

/-- A draft continues a match of the end of the context in the history, within the depth of the
tree, and behind the first length without a match there is no longer one. -/
theorem speculate_draft (order : MapOrder) (params : SpeculateParams F) (maxDepth : Nat)
    (calls : List (List Token)) (context : List Token) :
    (∀ draft, (calls.foldl extend (cleared maxDepth)).speculate order params context = some draft →
      draft ≠ [] → ∃ matchLen : Nat, max 1 params.minMatchLen ≤ matchLen ∧
        matchLen ≤ min context.length maxDepth ∧
        context.rtake matchLen ++ draft <:+: calls.flatten ∧ matchLen + draft.length ≤ maxDepth ∧
        (∃ node, (calls.foldl extend (cleared maxDepth)).root.find (context.rtake matchLen) =
          some node ∧ params.minMatchCount ≤ node.count) ∧
        (draft.length : Int) ≤ min params.maxSpecTokens (matchLen + 8)) ∧
      ∀ short long, short ≤ long →
        (calls.foldl extend (cleared maxDepth)).root.find (context.rtake short) = none →
          (calls.foldl extend (cleared maxDepth)).root.find (context.rtake long) = none := by
  obtain ⟨holds, depth, tokens⟩ := extends_hold calls (cleared_holds maxDepth)
  change _ = maxDepth at depth
  generalize calls.foldl extend (cleared maxDepth) = tree at holds depth tokens
  refine ⟨fun draft drafted some_ => ?_, fun short long le => holds.no_longer_match context le⟩
  rw [speculate] at drafted
  split at drafted
  · exact absurd (some.inj drafted).symm some_
  · have cut : (if tree.maxDepth < context.length then context.rtake tree.maxDepth else context) =
        context.rtake maxDepth := by
      rw [depth]
      split
      · rfl
      · rw [rtake, Nat.sub_eq_zero_of_le (by omega), drop_zero]
    rw [cut] at drafted
    rcases tryLengths_isDraft drafted with none_ | ⟨matchLen, member, node, found, often, path, short⟩
    · exact absurd none_ some_
    · obtain ⟨least, most⟩ := mem_range'_1.mp member
      rw [length_rtake] at most
      rw [rtake_rtake (by omega)] at found
      have length : (context.rtake matchLen).length = matchLen := by
        rw [length_rtake]
        omega
      have below : context.rtake matchLen ++ draft ≠ [] := by simp [some_]
      have whole : (tree.root.find (context.rtake matchLen ++ draft)).isSome := by
        rw [SuffixNode.find_append, found]
        exact path
      obtain ⟨occurs, deep⟩ := (holds.find_isSome_iff below).mp whole
      rw [length_append, length, depth] at deep
      rw [tokens] at occurs
      refine ⟨matchLen, by omega, by omega, occurs, deep, ⟨node, found, often⟩, ?_⟩
      rw [draftLimit] at short
      omega

example : (extend (cleared 4) [1, 2, 3]).speculate ⟨id, fun _ => .refl _⟩
    ⟨8, (0 : Nat), 1, 1⟩ [5, 1] = some [2, 3] := by decide

end SuffixTree

end LlamaCpp.Speculative
