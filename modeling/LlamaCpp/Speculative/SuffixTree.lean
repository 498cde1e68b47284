import LlamaCpp.Lib.Assoc
import Mathlib.Algebra.BigOperators.Group.Finset.Basic

/-!
# The suffix tree of a token history

`extend` appends tokens to the history, lengthens the suffixes that the old end cut short
and inserts the new ones.  Each path of the tree then counts the positions of the history
at which it occurs, whatever way the history was split into calls.
-/

set_option autoImplicit false

namespace LlamaCpp.Speculative

open LlamaCpp.Lib List Option

abbrev Token := Int

inductive SuffixNode
  | mk (count : Nat) (children : List (Token × SuffixNode))

namespace SuffixNode

def count : SuffixNode → Nat
  | mk count _ => count

def children : SuffixNode → List (Token × SuffixNode)
  | mk _ children => children

/-- The loop of `_insert_suffix` from a node down; it visits every token of the suffix. -/
def insertSuffix : List Token → SuffixNode → SuffixNode
  | [], node => node
  | tok :: rest, node =>
    let child := match node.children.lookup tok with
      | none => mk 1 []
      | some found => mk (found.count + 1) found.children
    mk node.count (assign tok (insertSuffix rest child) node.children)

/-- `_extend_suffix`: walks down the old part of the suffix without counting it. -/
def extendSuffix : List Token → List Token → SuffixNode → SuffixNode
  | [], added, node => insertSuffix added node
  | tok :: old, added, node =>
    match node.children.lookup tok with
    | none => node
    | some found => mk node.count (assign tok (extendSuffix old added found) node.children)

def find : SuffixNode → List Token → Option SuffixNode
  | node, [] => some node
  | node, tok :: path => (node.children.lookup tok).bind fun child => child.find path

def countAt (node : SuffixNode) (path : List Token) : Option Nat := (node.find path).map count

end SuffixNode

structure SuffixTree where
  maxDepth : Nat
  root : SuffixNode
  tokens : List Token
  inserted : Nat

namespace SuffixTree

/-- A tree after `clear`. -/
def cleared (maxDepth : Nat) : SuffixTree := ⟨maxDepth, .mk 0 [], [], 0⟩

def suffix (maxDepth : Nat) (tokens : List Token) (i : Nat) : List Token :=
  (tokens.drop i).take maxDepth

/-- The body of the loop of `extend` at position `i`. -/
def updateSuffix (maxDepth inserted : Nat) (before after : List Token) (i : Nat) (root : SuffixNode) :
    SuffixNode :=
  if i < inserted then
    let oldLen := min (before.length - i) maxDepth
    let newLen := min (after.length - i) maxDepth
    if oldLen < newLen then
      root.extendSuffix ((after.drop i).take oldLen) (((after.drop i).take newLen).drop oldLen)
    else root
  else root.insertSuffix (suffix maxDepth after i)

def extend (tree : SuffixTree) (added : List Token) : SuffixTree :=
  if added = [] then tree
  else
    let after := tree.tokens ++ added
    let reinsertFrom := tree.tokens.length - tree.maxDepth
    let positions := List.range' reinsertFrom (after.length - reinsertFrom)
    let root := positions.foldl
      (fun root i => updateSuffix tree.maxDepth tree.inserted tree.tokens after i root) tree.root
    ⟨tree.maxDepth, root, after, after.length⟩

end SuffixTree

namespace SuffixNode

@[simp] theorem countAt_nil (node : SuffixNode) : node.countAt [] = some node.count := rfl

theorem countAt_cons (node : SuffixNode) (tok : Token) (path : List Token) :
    node.countAt (tok :: path) = (node.children.lookup tok).bind fun child => child.countAt path := by
  rw [countAt, find]
  cases node.children.lookup tok <;> rfl

theorem countAt_assign (node child : SuffixNode) (tok other : Token) (path : List Token) :
    (mk node.count (assign tok child node.children)).countAt (other :: path) =
      if other = tok then child.countAt path else node.countAt (other :: path) := by
  rw [countAt_cons, countAt_cons, children, lookup_assign]
  split <;> rfl

variable {path : List Token}

theorem countAt_of_children {node other : SuffixNode} (same : node.children = other.children)
    (below : path ≠ []) : node.countAt path = other.countAt path := by
  cases path with
  | nil => exact absurd rfl below
  | cons tok path => rw [countAt_cons, countAt_cons, same]

theorem count_insertSuffix (word : List Token) (node : SuffixNode) :
    (insertSuffix word node).count = node.count := by
  cases word <;> rfl

theorem count_extendSuffix (old added : List Token) (node : SuffixNode) :
    (extendSuffix old added node).count = node.count := by
  cases old with
  | nil => exact count_insertSuffix added node
  | cons tok old =>
    rw [extendSuffix]
    cases node.children.lookup tok <;> rfl

theorem countAt_insertSuffix (word : List Token) (node : SuffixNode) (below : path ≠ []) :
    (insertSuffix word node).countAt path =
      if path <+: word then some ((node.countAt path).getD 0 + 1) else node.countAt path := by
  induction word generalizing node path with
  | nil => rw [insertSuffix, if_neg (fun isPrefix => below (prefix_nil.mp isPrefix))]
  | cons tok rest ih =>
    cases path with
    | nil => exact absurd rfl below
    | cons other path =>
      rw [insertSuffix, countAt_assign]
      simp only [cons_prefix_cons]
      by_cases same : other = tok
      · rw [same]
        simp only [true_and]
        cases path with
        | nil =>
          rw [countAt_nil, count_insertSuffix, countAt_cons]
          cases node.children.lookup tok <;> rfl
        | cons next path =>
          rw [ih _ (cons_ne_nil _ _), countAt_cons node]
          cases found : node.children.lookup tok with
          | none => rfl
          | some child =>
            have below' : (mk (child.count + 1) child.children).countAt (next :: path) =
                child.countAt (next :: path) :=
              countAt_of_children rfl (cons_ne_nil _ _)
            simp [below']
      · rw [if_neg same, if_neg (fun both => same both.1)]

theorem countAt_extendSuffix (old added : List Token) (node : SuffixNode)
    (present : (node.countAt old).isSome) (below : path ≠ []) :
    (extendSuffix old added node).countAt path =
      if path <+: old ++ added ∧ ¬ path <+: old then some ((node.countAt path).getD 0 + 1)
      else node.countAt path := by
  induction old generalizing node path with
  | nil =>
    rw [extendSuffix, countAt_insertSuffix added node below]
    simp [below]
  | cons tok old ih =>
    rw [countAt_cons] at present
    cases found : node.children.lookup tok with
    | none => simp [found] at present
    | some child =>
      rw [found] at present
      simp only [extendSuffix, found]
      cases path with
      | nil => exact absurd rfl below
      | cons other path =>
        rw [countAt_assign]
        simp only [cons_append, cons_prefix_cons]
        by_cases same : other = tok
        · rw [same, countAt_cons, found, bind_some]
          simp only [true_and]
          cases path with
          | nil => rw [countAt_nil, count_extendSuffix]; simp
          | cons next path => exact ih child present (cons_ne_nil _ _)
        · rw [if_neg same, if_neg (fun both => same both.1.1)]

end SuffixNode

def tally (n : Nat) : Option Nat := if n = 0 then none else some n

/-- How many of the first `n` words begin with the path. -/
def beginsWith (words : Nat → List Token) (n : Nat) (path : List Token) : Nat :=
  ((Finset.range n).filter fun i => path <+: words i).card

def Counts (root : SuffixNode) (words : Nat → List Token) (n : Nat) : Prop :=
  ∀ path, path ≠ [] → root.countAt path = tally (beginsWith words n path)

theorem tally_succ (n : Nat) : some ((tally n).getD 0 + 1) = tally (n + 1) := by
  cases n <;> rfl

variable {i n : Nat} {root : SuffixNode} {words : Nat → List Token}

theorem beginsWith_update (words : Nat → List Token) (inside : i < n) (word : List Token)
    (grows : words i <+: word) (path : List Token) :
    beginsWith (Function.update words i word) n path =
      beginsWith words n path + if path <+: word ∧ ¬ path <+: words i then 1 else 0 := by
  have off : ∀ j, j ≠ i → Function.update words i word j = words j := fun j other =>
    Function.update_of_ne other word words
  by_cases gains : path <+: word ∧ ¬ path <+: words i
  · have added : (Finset.range n).filter (fun j => path <+: Function.update words i word j) =
        insert i ((Finset.range n).filter fun j => path <+: words j) := by
      ext j
      simp only [Finset.mem_filter, Finset.mem_insert]
      by_cases here : j = i
      · rw [here]
        simp [inside, gains.1]
      · simp [here]
    rw [beginsWith, added, Finset.card_insert_of_notMem (by simp [gains.2]), if_pos gains, beginsWith]
  · have kept : (Finset.range n).filter (fun j => path <+: Function.update words i word j) =
        (Finset.range n).filter fun j => path <+: words j := by
      ext j
      simp only [Finset.mem_filter]
      by_cases here : j = i
      · rw [here, Function.update_self]
        have same : path <+: word ↔ path <+: words i :=
          ⟨fun isPrefix => by_contra fun lost => gains ⟨isPrefix, lost⟩, fun isPrefix => isPrefix.trans grows⟩
        rw [same]
      · rw [off j here]
    rw [beginsWith, kept, if_neg gains, beginsWith, add_zero]

theorem Counts.update {next : SuffixNode} (counts : Counts root words n) (inside : i < n)
    (word : List Token) (grows : words i <+: word)
    (step : ∀ path, path ≠ [] → next.countAt path = if path <+: word ∧ ¬ path <+: words i then some ((root.countAt path).getD 0 + 1) else root.countAt path) :
    Counts next (Function.update words i word) n := by
  intro path below
  rw [step path below, beginsWith_update words inside word grows, counts path below]
  split
  · exact tally_succ _
  · rfl

theorem Counts.present (counts : Counts root words n) (inside : i < n) :
    (root.countAt (words i)).isSome := by
  by_cases below : words i = []
  · rw [below]
    rfl
  · rw [counts _ below, tally, if_neg]
    · rfl
    · rw [beginsWith, Finset.card_eq_zero, ← ne_eq, ← Finset.nonempty_iff_ne_empty]
      exact ⟨i, Finset.mem_filter.mpr ⟨Finset.mem_range.mpr inside, prefix_refl _⟩⟩

theorem Counts.congr {other : Nat → List Token} (counts : Counts root words n)
    (same : ∀ i, i < n → words i = other i) : Counts root other n := by
  intro path below
  have sameCount : beginsWith words n path = beginsWith other n path := by
    rw [beginsWith]
    congr 1
    refine Finset.filter_congr fun i member => ?_
    rw [same i (Finset.mem_range.mp member)]
  rw [counts path below, sameCount]

theorem Counts.widen {m : Nat} (le : n ≤ m) (counts : Counts root words n)
    (past : ∀ i, n ≤ i → words i = []) : Counts root words m := by
  intro path below
  have sameCount : beginsWith words m path = beginsWith words n path := by
    rw [beginsWith]
    congr 1
    ext i
    simp only [Finset.mem_filter, Finset.mem_range]
    constructor
    · rintro ⟨-, isPrefix⟩
      refine ⟨by_contra fun late => below ?_, isPrefix⟩
      rw [past i (by omega)] at isPrefix
      exact prefix_nil.mp isPrefix
    · rintro ⟨early, isPrefix⟩
      exact ⟨by omega, isPrefix⟩
  rw [counts path below, sameCount]

namespace SuffixTree

/-- The suffixes before position `i` are those of the longer history. -/
def mixedSuffix (maxDepth : Nat) (before after : List Token) (i j : Nat) : List Token :=
  if j < i then suffix maxDepth after j else suffix maxDepth before j

theorem mixedSuffix_succ (maxDepth : Nat) (before after : List Token) (i : Nat) :
    mixedSuffix maxDepth before after (i + 1) =
      Function.update (mixedSuffix maxDepth before after i) i (suffix maxDepth after i) := by
  funext j
  by_cases here : j = i
  · rw [here, Function.update_self, mixedSuffix, if_pos (Nat.lt_succ_self i)]
  · rw [Function.update_of_ne here, mixedSuffix, mixedSuffix]
    have same : j < i + 1 ↔ j < i := by omega
    simp [same]

theorem mixedSuffix_self (maxDepth : Nat) (before after : List Token) (i : Nat) :
    mixedSuffix maxDepth before after i i = suffix maxDepth before i := by
  rw [mixedSuffix, if_neg (lt_irrefl i)]

theorem suffix_isPrefix (maxDepth : Nat) (before added : List Token) (i : Nat) :
    suffix maxDepth before i <+: suffix maxDepth (before ++ added) i := by
  have longer : before.drop i <+: (before ++ added).drop i := by
    rw [drop_append]
    exact prefix_append ..
  exact longer.take maxDepth

variable {i maxDepth : Nat} {tree : SuffixTree} {path : List Token}

theorem suffix_of_past (maxDepth : Nat) {tokens : List Token} (past : tokens.length ≤ i) :
    suffix maxDepth tokens i = [] := by
  rw [suffix, drop_of_length_le past, take_nil]

theorem take_min_eq_suffix (maxDepth : Nat) (tokens : List Token) (i : Nat) :
    (tokens.drop i).take (min (tokens.length - i) maxDepth) = suffix maxDepth tokens i := by
  rw [suffix, min_comm, ← take_take, ← length_drop, take_length]

theorem length_suffix (maxDepth : Nat) (tokens : List Token) (i : Nat) :
    (suffix maxDepth tokens i).length = min (tokens.length - i) maxDepth := by
  rw [suffix, length_take, length_drop, min_comm]

theorem take_min_eq_old_suffix (maxDepth : Nat) (before added : List Token) (i : Nat) :
    ((before ++ added).drop i).take (min (before.length - i) maxDepth) =
      suffix maxDepth before i := by
  rw [← length_suffix]
  exact (prefix_iff_eq_take.mp ((suffix_isPrefix maxDepth before added i).trans
    ( take_prefix ..))).symm

/-- One pass of the loop turns the suffix at `i` into that of the longer history. -/
theorem updateSuffix_counts {n : Nat} {before added : List Token} {root : SuffixNode}
    (counts : Counts root (mixedSuffix maxDepth before (before ++ added) i) n) (inside : i < n) :
    Counts (updateSuffix maxDepth before.length before (before ++ added) i root)
      (mixedSuffix maxDepth before (before ++ added) (i + 1)) n := by
  rw [mixedSuffix_succ]
  have here := mixedSuffix_self maxDepth before (before ++ added) i
  have grows := suffix_isPrefix maxDepth before added i
  have present := counts.present inside
  rw [here] at present
  refine counts.update inside _ (by rw [here]; exact grows) fun path below => ?_
  rw [here]
  unfold updateSuffix
  split
  · have newWord := take_min_eq_suffix maxDepth (before ++ added) i
    simp only [take_min_eq_old_suffix maxDepth before added i, newWord]
    simp only [← length_suffix]
    split
    · have whole : suffix maxDepth before i ++
          (suffix maxDepth (before ++ added) i).drop (suffix maxDepth before i).length =
            suffix maxDepth (before ++ added) i := by
        conv_rhs => rw [← take_append_drop (suffix maxDepth before i).length
          (suffix maxDepth (before ++ added) i), ← prefix_iff_eq_take.mp grows]
      have extended := SuffixNode.countAt_extendSuffix _
        ((suffix maxDepth (before ++ added) i).drop (suffix maxDepth before i).length) root present below
      simpa only [whole] using extended
    · have same := grows.eq_of_length_le (by omega)
      rw [← same, if_neg (fun both => both.2 both.1)]
  · have none_ : suffix maxDepth before i = [] := suffix_of_past maxDepth (by omega)
    simp only [none_, prefix_nil, below, not_false_eq_true, and_true]
    exact SuffixNode.countAt_insertSuffix _ root below

/-- The loop over the positions from `i` on. -/
theorem updateSuffixes_counts {n : Nat} {before added : List Token} (steps i : Nat)
    (root : SuffixNode) (counts : Counts root (mixedSuffix maxDepth before (before ++ added) i) n)
    (inside : i + steps ≤ n) : Counts ((List.range' i steps).foldl
        (fun root i => updateSuffix maxDepth before.length before (before ++ added) i root) root)
      (mixedSuffix maxDepth before (before ++ added) (i + steps)) n := by
  induction steps generalizing i root with
  | zero => exact counts
  | succ steps ih =>
    have next := ih (i + 1) _ (updateSuffix_counts counts (by omega)) (by omega)
    rwa [add_right_comm] at next

theorem count_updateSuffixes (maxDepth inserted : Nat) (before after : List Token)
    (positions : List Nat) (root : SuffixNode) :
    (positions.foldl (fun root i => updateSuffix maxDepth inserted before after i root) root).count =
      root.count := by
  induction positions generalizing root with
  | nil => rfl
  | cons i positions ih =>
    rw [foldl_cons, ih]
    unfold updateSuffix
    split
    · dsimp only
      split
      · exact SuffixNode.count_extendSuffix ..
      · rfl
    · exact SuffixNode.count_insertSuffix ..

structure HoldsHistory (tree : SuffixTree) : Prop where
  inserted : tree.inserted = tree.tokens.length
  rootCount : tree.root.count = 0
  counts : Counts tree.root (suffix tree.maxDepth tree.tokens) tree.tokens.length

theorem cleared_holds (maxDepth : Nat) : HoldsHistory (cleared maxDepth) := by
  refine ⟨rfl, rfl, fun path below => ?_⟩
  cases path with
  | nil => exact absurd rfl below
  | cons tok path => rfl

theorem extend_tokens (tree : SuffixTree) (added : List Token) :
    (extend tree added).tokens = tree.tokens ++ added := by
  rw [extend]
  split
  · rename_i none_
    rw [none_, append_nil]
  · rfl

theorem extend_maxDepth (tree : SuffixTree) (added : List Token) :
    (extend tree added).maxDepth = tree.maxDepth := by
  rw [extend]
  split <;> rfl

theorem suffix_append (maxDepth : Nat) (before added : List Token)
    (deep : i + maxDepth ≤ before.length) :
    suffix maxDepth (before ++ added) i = suffix maxDepth before i := by
  rw [suffix, suffix, drop_append_of_le_length (by omega),
    take_append_of_le_length (by rw [length_drop]; omega)]

theorem extend_holds (holds : HoldsHistory tree) (added : List Token) :
    HoldsHistory (extend tree added) := by
  rw [extend]
  split
  · exact holds
  · refine ⟨rfl, (count_updateSuffixes ..).trans holds.rootCount, ?_⟩
    have length : (tree.tokens ++ added).length = tree.tokens.length + added.length :=
      length_append
    simp only [holds.inserted]
    have initially : Counts tree.root
        (mixedSuffix tree.maxDepth tree.tokens (tree.tokens ++ added)
          (tree.tokens.length - tree.maxDepth)) (tree.tokens ++ added).length := by
      refine (holds.counts.widen (by omega) fun i past => suffix_of_past _ past).congr fun i _ => ?_
      rw [mixedSuffix]
      split
      · exact (suffix_append _ _ _ (by omega)).symm
      · rfl
    have finally_ := updateSuffixes_counts
      ((tree.tokens ++ added).length - (tree.tokens.length - tree.maxDepth))
      (tree.tokens.length - tree.maxDepth) tree.root initially (by omega)
    refine finally_.congr fun i inside => ?_
    rw [mixedSuffix, if_pos (by omega)]

theorem extends_hold (calls : List (List Token)) (holds : HoldsHistory tree) :
    HoldsHistory (calls.foldl extend tree) ∧
      (calls.foldl extend tree).maxDepth = tree.maxDepth ∧
      (calls.foldl extend tree).tokens = tree.tokens ++ calls.flatten := by
  induction calls generalizing tree with
  | nil => exact ⟨holds, rfl, by simp⟩
  | cons added calls ih =>
    obtain ⟨after, depth, tokens⟩ := ih (extend_holds holds added)
    refine ⟨after, depth.trans (extend_maxDepth tree added), ?_⟩
    rw [foldl_cons, tokens, extend_tokens, flatten_cons, append_assoc]

def occurrences (path tokens : List Token) : Nat :=
  ((Finset.range tokens.length).filter fun i => path <+: tokens.drop i).card

theorem prefix_suffix_iff (short : path.length ≤ maxDepth) (tokens : List Token) (i : Nat) :
    path <+: suffix maxDepth tokens i ↔ path <+: tokens.drop i := by
  rw [suffix, prefix_take_iff]
  exact and_iff_left short

theorem occurrences_pos_iff {tokens : List Token} (below : path ≠ []) :
    0 < occurrences path tokens ↔ path <:+: tokens := by
  rw [occurrences, Finset.card_pos]
  constructor
  · rintro ⟨i, member⟩
    exact (Finset.mem_filter.mp member).2.isInfix.trans (drop_suffix i tokens).isInfix
  · rintro ⟨front, back, whole⟩
    have length := congrArg List.length whole
    have positive := length_pos_iff.mpr below
    simp only [length_append] at length
    refine ⟨front.length, Finset.mem_filter.mpr ⟨Finset.mem_range.mpr (by omega), back, ?_⟩⟩
    rw [← whole, append_assoc, drop_left]

theorem HoldsHistory.countAt (holds : HoldsHistory tree) (below : path ≠ [])
    (short : path.length ≤ tree.maxDepth) :
    tree.root.countAt path = tally (occurrences path tree.tokens) := by
  rw [holds.counts path below, beginsWith, occurrences]
  simp [prefix_suffix_iff short]

theorem HoldsHistory.find_isSome_iff (holds : HoldsHistory tree)
    (below : path ≠ []) : (tree.root.find path).isSome ↔
      path <:+: tree.tokens ∧ path.length ≤ tree.maxDepth := by
  rw [← isSome_map]
  change (tree.root.countAt path).isSome ↔ _
  constructor
  · intro present
    rw [holds.counts path below, tally] at present
    split at present
    · cases present
    · rename_i some_
      obtain ⟨i, member⟩ := Finset.card_pos.mp (Nat.pos_of_ne_zero some_)
      have isPrefix := (Finset.mem_filter.mp member).2
      refine ⟨isPrefix.isInfix.trans ?_, isPrefix.length_le.trans ?_⟩
      · exact ( take_prefix ..).isInfix.trans (drop_suffix i tree.tokens).isInfix
      · rw [length_suffix]
        exact Nat.min_le_right ..
  · rintro ⟨occurs, short⟩
    rw [holds.countAt below short, tally, if_neg]
    · rfl
    · exact Nat.ne_of_gt ((occurrences_pos_iff below).mpr occurs)

/-- However the history is split into calls, the tree is the one that a single call builds:
its paths are what occurs in the history, to its depth, each with its number of positions. -/
theorem extend_calls (maxDepth : Nat) (calls : List (List Token)) :
    (∀ path, 1 ≤ path.length → path.length ≤ maxDepth →
      (((calls.foldl extend (cleared maxDepth)).root.find path).isSome ↔ path <:+: calls.flatten) ∧
        ∀ node, (calls.foldl extend (cleared maxDepth)).root.find path = some node →
          node.count = occurrences path calls.flatten) ∧
      ∀ path, (calls.foldl extend (cleared maxDepth)).root.countAt path =
        (extend (cleared maxDepth) calls.flatten).root.countAt path := by
  obtain ⟨holds, depth, tokens⟩ := extends_hold calls (cleared_holds maxDepth)
  have once := extend_holds (cleared_holds maxDepth) calls.flatten
  have onceTokens := extend_tokens (cleared maxDepth) calls.flatten
  have onceDepth := extend_maxDepth (cleared maxDepth) calls.flatten
  change _ = maxDepth at depth
  change _ = maxDepth at onceDepth
  change _ = [] ++ calls.flatten at tokens
  change _ = [] ++ calls.flatten at onceTokens
  refine ⟨fun path long short => ?_, fun path => ?_⟩
  · have below : path ≠ [] := length_pos_iff.mp long
    refine ⟨?_, fun node found => ?_⟩
    · rw [holds.find_isSome_iff below, tokens, depth]
      exact and_iff_left short
    · have count := holds.countAt below (by rw [depth]; exact short)
      rw [tokens, SuffixNode.countAt, found, tally] at count
      split at count
      · cases count
      · exact some.inj count
  · by_cases below : path = []
    · rw [below, SuffixNode.countAt_nil, SuffixNode.countAt_nil, holds.rootCount, once.rootCount]
    · rw [holds.counts path below, once.counts path below, tokens, onceTokens, depth, onceDepth]

end SuffixTree

end LlamaCpp.Speculative
