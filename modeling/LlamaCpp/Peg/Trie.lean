import Mathlib.Data.List.Infix

/-!
# The trie of delimiters

The children of a node are kept in the order of the map: each entry has its code point,
its node, and the entries after it.  The trie of some words has their beginnings as paths
and marks the words themselves.
-/

set_option autoImplicit false

namespace LlamaCpp.Peg

open List

/-- The map of children: a code point, the node it leads to, and the other entries. -/
inductive Children
  | nil
  | node (ch : Nat) (isWord : Bool) (children others : Children)
deriving DecidableEq

/-- `trie`: the root node. -/
structure Trie where
  isWord : Bool
  children : Children
deriving DecidableEq

namespace Children

def chain : List Nat → Children
  | [] => nil
  | ch :: word => node ch (decide (word = [])) (chain word) nil

/-- The walk of `insert` from a code point on. -/
def insert : Children → Nat → List Nat → Children
  | nil, ch, word => chain (ch :: word)
  | node c isWord children others, ch, word =>
    if ch = c then
      match word with
      | [] => node c true children others
      | next :: word => node c isWord (children.insert next word) others
    else if ch < c then node ch (decide (word = [])) (chain word) (node c isWord children others)
    else node c isWord children (others.insert ch word)

def keys : Children → List Nat
  | nil => []
  | node ch _ _ others => ch :: others.keys

def HasPath : Children → List Nat → Prop
  | nil, _ => False
  | node c _ children others, path =>
    path = [c] ∨ (∃ rest, path = c :: rest ∧ children.HasPath rest) ∨ others.HasPath path

def HasWord : Children → List Nat → Prop
  | nil, _ => False
  | node c isWord children others, path =>
    (path = [c] ∧ isWord = true) ∨ (∃ rest, path = c :: rest ∧ children.HasWord rest) ∨
      others.HasWord path

def HasNode : Children → List Nat → Bool → Children → Prop
  | nil, _, _, _ => False
  | node c isWord children others, path, mark, below =>
    (path = [c] ∧ mark = isWord ∧ below = children) ∨
      (∃ rest, path = c :: rest ∧ children.HasNode rest mark below) ∨ others.HasNode path mark below

/-- The code points of each map increase, from above `low` on. -/
def Ordered : Option Nat → Children → Prop
  | _, nil => True
  | low, node c _ children others =>
    (∀ l ∈ low, l < c) ∧ children.Ordered none ∧ others.Ordered (some c)

end Children

def Trie.insert (trie : Trie) (word : List Nat) : Trie :=
  match word with
  | [] => ⟨true, trie.children⟩
  | ch :: word => ⟨trie.isWord, trie.children.insert ch word⟩

def Trie.ofWords (words : List (List Nat)) : Trie := words.foldl Trie.insert ⟨false, .nil⟩

namespace Children

theorem hasPath_chain (ch : Nat) (word path : List Nat) :
    (chain (ch :: word)).HasPath path ↔ path ≠ [] ∧ path <+: ch :: word := by
  induction word generalizing ch path with
  | nil =>
    simp only [chain, HasPath]
    cases path with
    | nil => simp
    | cons c path => simp
  | cons next word ih =>
    rw [chain]
    simp only [ih, HasPath, or_false]
    cases path with
    | nil => simp
    | cons c path =>
      simp only [List.cons.injEq, cons_prefix_cons, ne_eq, reduceCtorEq, not_false_eq_true,
        true_and]
      constructor
      · rintro (⟨same, empty⟩ | ⟨rest, ⟨same, tail⟩, -, isPrefix⟩)
        · rw [empty]
          exact ⟨same, nil_prefix⟩
        · exact ⟨same, tail ▸ isPrefix⟩
      · rintro ⟨same, isPrefix⟩
        by_cases empty : path = []
        · exact Or.inl ⟨same, empty⟩
        · exact Or.inr ⟨path, ⟨same, rfl⟩, empty, isPrefix⟩

theorem hasWord_chain (ch : Nat) (word path : List Nat) :
    (chain (ch :: word)).HasWord path ↔ path = ch :: word := by
  induction word generalizing ch path with
  | nil => simp [chain, HasWord]
  | cons next word ih =>
    rw [chain]
    simp only [ih, HasWord]
    simp

theorem hasPath_insert (children : Children) (ch : Nat) (word path : List Nat) :
    (children.insert ch word).HasPath path ↔
      children.HasPath path ∨ path ≠ [] ∧ path <+: ch :: word := by
  induction children generalizing ch word path with
  | nil => rw [insert, hasPath_chain, HasPath, false_or]
  | node c isWord children others ihDown ihOthers =>
    unfold insert
    split_ifs with here before
    · subst here
      cases word with
      | nil =>
        simp only [HasPath]
        cases path with
        | nil => simp
        | cons p path =>
          simp only [cons_prefix_cons, prefix_nil, List.cons.injEq]
          constructor
          · exact Or.inl
          · rintro (old | ⟨-, same⟩)
            · exact old
            · exact Or.inl same
      | cons next word =>
        simp only [HasPath, ihDown]
        cases path with
        | nil => simp
        | cons p path =>
          simp only [cons_prefix_cons, List.cons.injEq, ne_eq, reduceCtorEq,
            not_false_eq_true, true_and]
          constructor
          · rintro (⟨same, empty⟩ | ⟨rest, ⟨same, tail⟩, old | ⟨-, added⟩⟩ | other)
            · exact Or.inl (Or.inl ⟨same, empty⟩)
            · exact Or.inl (Or.inr (Or.inl ⟨rest, ⟨same, tail⟩, old⟩))
            · exact Or.inr ⟨same, tail ▸ added⟩
            · exact Or.inl (Or.inr (Or.inr other))
          · rintro ((⟨same, empty⟩ | ⟨rest, both, old⟩ | other) | ⟨same, added⟩)
            · exact Or.inl ⟨same, empty⟩
            · exact Or.inr (Or.inl ⟨rest, both, Or.inl old⟩)
            · exact Or.inr (Or.inr other)
            · by_cases empty : path = []
              · exact Or.inl ⟨same, empty⟩
              · exact Or.inr (Or.inl ⟨path, ⟨same, rfl⟩, Or.inr ⟨empty, added⟩⟩)
    · have added := hasPath_chain ch word path
      rw [chain] at added
      simp only [HasPath, or_false] at added ⊢
      rw [← or_assoc, added, or_comm]
    · simp [HasPath, ihOthers, or_assoc]

theorem hasWord_insert (children : Children) (ch : Nat) (word path : List Nat) :
    (children.insert ch word).HasWord path ↔ children.HasWord path ∨ path = ch :: word := by
  induction children generalizing ch word path with
  | nil => rw [insert, hasWord_chain, HasWord, false_or]
  | node c isWord children others ihDown ihOthers =>
    unfold insert
    split_ifs with here before
    · subst here
      cases word with
      | nil =>
        simp only [HasWord, and_true]
        constructor
        · rintro (added | old)
          · exact Or.inr added
          · exact Or.inl (Or.inr old)
        · rintro ((⟨same, -⟩ | old) | added)
          · exact Or.inl same
          · exact Or.inr old
          · exact Or.inl added
      | cons next word =>
        simp only [HasWord, ihDown]
        constructor
        · rintro (both | ⟨rest, same, old | added⟩ | other)
          · exact Or.inl (Or.inl both)
          · exact Or.inl (Or.inr (Or.inl ⟨rest, same, old⟩))
          · exact Or.inr (by rw [same, added])
          · exact Or.inl (Or.inr (Or.inr other))
        · rintro ((both | ⟨rest, same, old⟩ | other) | added)
          · exact Or.inl both
          · exact Or.inr (Or.inl ⟨rest, same, Or.inl old⟩)
          · exact Or.inr (Or.inr other)
          · exact Or.inr (Or.inl ⟨next :: word, added, Or.inr rfl⟩)
    · have added := hasWord_chain ch word path
      rw [chain] at added
      simp only [HasWord, or_false] at added ⊢
      rw [← or_assoc, added, or_comm]
    · simp [HasWord, ihOthers, or_assoc]

theorem ordered_chain (low : Option Nat) (ch : Nat) (word : List Nat) (above : ∀ l ∈ low, l < ch) :
    (chain (ch :: word)).Ordered low := by
  induction word generalizing low ch with
  | nil => exact ⟨above, trivial, trivial⟩
  | cons next word ih => exact ⟨above, ih none next (by simp), trivial⟩

theorem ordered_chain_tail (word : List Nat) : (chain word).Ordered none := by
  cases word with
  | nil => trivial
  | cons ch word => exact ordered_chain none ch word (by simp)

theorem Ordered.insert {low : Option Nat} {children : Children} (ordered : children.Ordered low)
    (ch : Nat) (word : List Nat) (above : ∀ l ∈ low, l < ch) :
    (children.insert ch word).Ordered low := by
  induction children generalizing low ch word with
  | nil => exact ordered_chain low ch word above
  | node c isWord children others ihDown ihOthers =>
    obtain ⟨aboveC, down, rest⟩ := ordered
    unfold Children.insert
    split_ifs with here before
    · cases word with
      | nil => exact ⟨aboveC, down, rest⟩
      | cons next word => exact ⟨aboveC, ihDown down next word (by simp), rest⟩
    · refine ⟨above, ordered_chain_tail word, ?_, down, rest⟩
      intro l member
      cases member
      exact before
    · refine ⟨aboveC, down, ihOthers rest ch word fun l member => ?_⟩
      cases member
      omega

theorem not_hasPath_nil (children : Children) : ¬ children.HasPath [] := by
  induction children with
  | nil => exact id
  | node c isWord children others _ ihOthers =>
    rintro (same | ⟨rest, same, -⟩ | other)
    · cases same
    · cases same
    · exact ihOthers other

theorem HasNode.hasPath {children below : Children} {path : List Nat} {mark : Bool}
    (node : children.HasNode path mark below) : children.HasPath path := by
  induction children generalizing path with
  | nil => exact node
  | node c isWord children others ihDown ihOthers =>
    rcases node with ⟨same, -⟩ | ⟨rest, same, down⟩ | other
    · exact Or.inl same
    · exact Or.inr (Or.inl ⟨rest, same, ihDown down⟩)
    · exact Or.inr (Or.inr (ihOthers other))

theorem HasWord.hasPath {children : Children} {path : List Nat} (word : children.HasWord path) :
    children.HasPath path := by
  induction children generalizing path with
  | nil => exact word
  | node c isWord children others ihDown ihOthers =>
    rcases word with ⟨same, -⟩ | ⟨rest, same, down⟩ | other
    · exact Or.inl same
    · exact Or.inr (Or.inl ⟨rest, same, ihDown down⟩)
    · exact Or.inr (Or.inr (ihOthers other))

theorem exists_hasNode {children : Children} {path : List Nat} (isPath : children.HasPath path) :
    ∃ mark below, children.HasNode path mark below := by
  induction children generalizing path with
  | nil => exact absurd isPath id
  | node c isWord children others ihDown ihOthers =>
    rcases isPath with same | ⟨rest, same, down⟩ | other
    · exact ⟨isWord, children, Or.inl ⟨same, rfl, rfl⟩⟩
    · obtain ⟨mark, below, node⟩ := ihDown down
      exact ⟨mark, below, Or.inr (Or.inl ⟨rest, same, node⟩)⟩
    · obtain ⟨mark, below, node⟩ := ihOthers other
      exact ⟨mark, below, Or.inr (Or.inr node)⟩

theorem Ordered.head {low : Option Nat} {children : Children} (ordered : children.Ordered low)
    {ch : Nat} {rest : List Nat} (isPath : children.HasPath (ch :: rest)) : ∀ l ∈ low, l < ch := by
  induction children generalizing low with
  | nil => exact absurd isPath id
  | node c isWord children others _ ihOthers =>
    intro l member
    have above := ordered.1 l member
    rcases isPath with same | ⟨tail, same, -⟩ | other
    · cases same
      exact above
    · cases same
      exact above
    · exact above.trans (ihOthers ordered.2.2 other c rfl)

theorem Ordered.not_others {c : Nat} {others : Children} (ordered : others.Ordered (some c))
    (rest : List Nat) : ¬ others.HasPath (c :: rest) := fun isPath =>
  lt_irrefl c (ordered.head isPath c rfl)

theorem keys_iff {children : Children} {ch : Nat} : ch ∈ children.keys ↔ children.HasPath [ch] := by
  induction children with
  | nil => simp [keys, HasPath]
  | node c isWord children others _ ihOthers =>
    rw [keys, mem_cons, HasPath, ihOthers]
    have down : ¬ ∃ rest, [ch] = c :: rest ∧ children.HasPath rest := by
      rintro ⟨rest, same, isPath⟩
      cases same
      exact not_hasPath_nil children isPath
    have same : [ch] = [c] ↔ ch = c := by simp
    rw [same, or_iff_right down]

theorem Ordered.mark_iff {low : Option Nat} {children below : Children} (ordered : children.Ordered low)
    {path : List Nat} {mark : Bool} (node : children.HasNode path mark below) :
    mark = true ↔ children.HasWord path := by
  induction children generalizing low path with
  | nil => exact absurd node id
  | node c isWord children others ihDown ihOthers =>
    obtain ⟨-, downOrdered, othersOrdered⟩ := ordered
    rcases node with ⟨same, isMark, -⟩ | ⟨rest, same, down⟩ | other
    · rw [same, isMark]
      constructor
      · exact fun marked => Or.inl ⟨rfl, marked⟩
      · rintro (⟨-, marked⟩ | ⟨rest, tail, word⟩ | word)
        · exact marked
        · cases tail
          exact absurd word.hasPath (not_hasPath_nil children)
        · exact absurd word.hasPath (othersOrdered.not_others [])
    · rw [ihDown downOrdered down, same]
      constructor
      · exact fun word => Or.inr (Or.inl ⟨rest, rfl, word⟩)
      · rintro (⟨tail, -⟩ | ⟨tail, same', word⟩ | word)
        · cases tail
          exact absurd down.hasPath (not_hasPath_nil children)
        · cases same'
          exact word
        · exact absurd word.hasPath (othersOrdered.not_others rest)
    · rw [ihOthers othersOrdered other]
      constructor
      · exact fun word => Or.inr (Or.inr word)
      · rintro (⟨same, -⟩ | ⟨rest, same, -⟩ | word)
        · rw [same] at other
          exact absurd other.hasPath (othersOrdered.not_others [])
        · rw [same] at other
          exact absurd other.hasPath (othersOrdered.not_others rest)
        · exact word

theorem Ordered.below_iff {low : Option Nat} {children below : Children}
    (ordered : children.Ordered low) {path : List Nat} {mark : Bool}
    (node : children.HasNode path mark below) (rest : List Nat) (more : rest ≠ []) :
    below.HasPath rest ↔ children.HasPath (path ++ rest) := by
  induction children generalizing low path with
  | nil => exact absurd node id
  | node c isWord children others ihDown ihOthers =>
    obtain ⟨-, downOrdered, othersOrdered⟩ := ordered
    rcases node with ⟨same, -, isBelow⟩ | ⟨tail, same, down⟩ | other
    · rw [same, isBelow]
      constructor
      · exact fun isPath => Or.inr (Or.inl ⟨rest, rfl, isPath⟩)
      · rintro (same' | ⟨tail, same', isPath⟩ | isPath)
        · cases same'
          exact absurd rfl more
        · cases same'
          exact isPath
        · exact absurd isPath (othersOrdered.not_others rest)
    · rw [ihDown downOrdered down, same]
      constructor
      · exact fun isPath => Or.inr (Or.inl ⟨tail ++ rest, rfl, isPath⟩)
      · rintro (same' | ⟨tail', same', isPath⟩ | isPath)
        · cases tail with
          | nil => exact absurd down.hasPath (not_hasPath_nil children)
          | cons t tail => cases same'
        · cases same'
          exact isPath
        · exact absurd isPath (othersOrdered.not_others _)
    · rw [ihOthers othersOrdered other]
      cases path with
      | nil => exact absurd other.hasPath (not_hasPath_nil others)
      | cons p path =>
        have above := othersOrdered.head other.hasPath c rfl
        constructor
        · exact fun isPath => Or.inr (Or.inr isPath)
        · rintro (same | ⟨tail, same, -⟩ | isPath)
          · rw [cons_append, List.cons.injEq] at same
            omega
          · rw [cons_append, List.cons.injEq] at same
            omega
          · exact isPath

end Children

def Begins (words : List (List Nat)) (path : List Nat) : Prop := ∃ word ∈ words, path <+: word

instance (words : List (List Nat)) (path : List Nat) : Decidable (Begins words path) :=
  inferInstanceAs (Decidable (∃ word ∈ words, path <+: word))

structure Trie.Holds (trie : Trie) (words : List (List Nat)) : Prop where
  isWord : trie.isWord = true ↔ [] ∈ words
  ordered : trie.children.Ordered none
  hasPath : ∀ path, trie.children.HasPath path ↔ path ≠ [] ∧ Begins words path
  hasWord : ∀ path, trie.children.HasWord path ↔ path ≠ [] ∧ path ∈ words

theorem Trie.Holds.insert {trie : Trie} {words : List (List Nat)} (holds : trie.Holds words)
    (word : List Nat) : (trie.insert word).Holds (words ++ [word]) := by
  have begins : ∀ path, Begins (words ++ [word]) path ↔ Begins words path ∨ path <+: word := by
    intro path
    simp [Begins]
  cases word with
  | nil =>
    refine ⟨by simp [Trie.insert], holds.ordered, fun path => ?_, fun path => ?_⟩
    · rw [begins, prefix_nil]
      exact (holds.hasPath path).trans (by tauto)
    · rw [mem_append, mem_singleton]
      exact (holds.hasWord path).trans (by tauto)
  | cons ch word =>
    refine ⟨?_, Children.Ordered.insert holds.ordered ch word (by simp), fun path => ?_,
      fun path => ?_⟩
    · rw [mem_append, ← holds.isWord]
      simp [Trie.insert]
    · rw [begins]
      refine (Children.hasPath_insert trie.children ch word path).trans ?_
      rw [holds.hasPath]
      tauto
    · rw [mem_append, mem_singleton]
      refine (Children.hasWord_insert trie.children ch word path).trans ?_
      rw [holds.hasWord]
      constructor
      · rintro (⟨nonempty, old⟩ | added)
        · exact ⟨nonempty, Or.inl old⟩
        · exact ⟨by simp [added], Or.inr added⟩
      · rintro ⟨nonempty, old | added⟩
        · exact Or.inl ⟨nonempty, old⟩
        · exact Or.inr added

theorem Trie.ofWords_holds (words : List (List Nat)) : (Trie.ofWords words).Holds words := by
  have folds : ∀ (rest done : List (List Nat)) (trie : Trie), trie.Holds done →
      (rest.foldl Trie.insert trie).Holds (done ++ rest) := by
    intro rest
    induction rest with
    | nil =>
      intro done trie holds
      rw [append_nil]
      exact holds
    | cons word rest ih =>
      intro done trie holds
      have next := ih (done ++ [word]) (trie.insert word) (holds.insert word)
      rwa [append_assoc] at next
  refine folds words [] ⟨false, .nil⟩ ⟨by simp, trivial, fun path => ?_, fun path => ?_⟩
  · simp [Children.HasPath, Begins]
  · simp [Children.HasWord]

structure PrefixAndNext where
  pre : List Nat
  nextChars : List Nat
deriving DecidableEq

def nodePiece (isWord : Bool) (children : Children) (pre : List Nat) : List PrefixAndNext :=
  if isWord = false ∧ children ≠ .nil then [⟨pre, children.keys⟩] else []

/-- The loop of `collect_prefix_and_next` over the children of a node. -/
def Children.collect : Children → List Nat → List PrefixAndNext
  | nil, _ => []
  | node ch isWord children others, pre =>
    nodePiece isWord children (pre ++ [ch]) ++ children.collect (pre ++ [ch]) ++ others.collect pre

def Trie.collectPrefixAndNext (trie : Trie) : List PrefixAndNext :=
  nodePiece trie.isWord trie.children [] ++ trie.children.collect []

theorem mem_nodePiece {isWord : Bool} {children : Children} {pre : List Nat} {piece : PrefixAndNext} :
    piece ∈ nodePiece isWord children pre ↔
      isWord = false ∧ children ≠ .nil ∧ piece = ⟨pre, children.keys⟩ := by
  unfold nodePiece
  split_ifs with emits
  · rw [mem_singleton]
    exact ⟨fun same => ⟨emits.1, emits.2, same⟩, fun facts => facts.2.2⟩
  · exact ⟨nofun, fun facts => absurd ⟨facts.1, facts.2.1⟩ emits⟩

theorem Children.mem_collect {children : Children} {pre : List Nat} {piece : PrefixAndNext} :
    piece ∈ children.collect pre ↔ ∃ path below, children.HasNode path false below ∧
      below ≠ .nil ∧ piece = ⟨pre ++ path, below.keys⟩ := by
  induction children generalizing pre with
  | nil => simp [collect, HasNode]
  | node ch isWord children others ihDown ihOthers =>
    rw [collect, mem_append, mem_append, mem_nodePiece, ihDown, ihOthers]
    constructor
    · rintro ((⟨unmarked, more, same⟩ | ⟨path, below, node, more, same⟩) |
        ⟨path, below, node, more, same⟩)
      · exact ⟨[ch], children, Or.inl ⟨rfl, unmarked.symm, rfl⟩, more, same⟩
      · exact ⟨ch :: path, below, Or.inr (Or.inl ⟨path, rfl, node⟩), more, by
          rw [same, append_assoc, singleton_append]⟩
      · exact ⟨path, below, Or.inr (Or.inr node), more, same⟩
    · rintro ⟨path, below, ⟨isPath, unmarked, isBelow⟩ | ⟨rest, isPath, node⟩ | node, more, same⟩
      · subst isPath isBelow
        exact Or.inl (Or.inl ⟨unmarked.symm, more, same⟩)
      · subst isPath
        exact Or.inl (Or.inr ⟨rest, below, node, more, by
          rw [same, append_assoc, singleton_append]⟩)
      · exact Or.inr ⟨path, below, node, more, same⟩

theorem Children.ne_nil_iff {children : Children} : children ≠ .nil ↔ ∃ ch, children.HasPath [ch] := by
  cases children with
  | nil => simp [HasPath]
  | node ch isWord children others => exact ⟨fun _ => ⟨ch, Or.inl rfl⟩, fun _ off => by cases off⟩

structure IsPiece (words : List (List Nat)) (path : List Nat) : Prop where
  notWord : path ∉ words
  goesOn : ∃ ch, Begins words (path ++ [ch])

theorem Begins.of_isPrefix {words : List (List Nat)} {path longer : List Nat}
    (begins : Begins words longer) (isPrefix : path <+: longer) : Begins words path := by
  obtain ⟨word, member, longPrefix⟩ := begins
  exact ⟨word, member, isPrefix.trans longPrefix⟩

theorem Trie.Holds.begins_snoc {trie : Trie} {words : List (List Nat)} (holds : trie.Holds words)
    (path : List Nat) (ch : Nat) :
    trie.children.HasPath (path ++ [ch]) ↔ Begins words (path ++ [ch]) := by
  rw [holds.hasPath]
  exact and_iff_right (by simp)

theorem Trie.Holds.node {trie : Trie} {words : List (List Nat)} (holds : trie.Holds words)
    {path : List Nat} {mark : Bool} {below : Children} (node : trie.children.HasNode path mark below) :
    (mark = true ↔ path ∈ words) ∧ ∀ ch, below.HasPath [ch] ↔ Begins words (path ++ [ch]) := by
  have nonempty := ((holds.hasPath path).mp node.hasPath).1
  refine ⟨?_, fun ch => ?_⟩
  · rw [holds.ordered.mark_iff node, holds.hasWord]
    exact and_iff_right nonempty
  · rw [holds.ordered.below_iff node [ch] (by simp), holds.begins_snoc]

theorem isPiece_of_node {words : List (List Nat)} {path : List Nat} {mark : Bool} {below : Children}
    (unmarked : mark = false) (more : below ≠ .nil) (isWord : mark = true ↔ path ∈ words)
    (goesOn : ∀ ch, below.HasPath [ch] ↔ Begins words (path ++ [ch])) : IsPiece words path := by
  refine ⟨fun member => ?_, ?_⟩
  · rw [← isWord, unmarked] at member
    cases member
  · obtain ⟨ch, isPath⟩ := Children.ne_nil_iff.mp more
    exact ⟨ch, (goesOn ch).mp isPath⟩

theorem mem_collectPrefixAndNext {words : List (List Nat)} {piece : PrefixAndNext}
    (member : piece ∈ (Trie.ofWords words).collectPrefixAndNext) :
    IsPiece words piece.pre ∧ ∀ ch, ch ∈ piece.nextChars ↔ Begins words (piece.pre ++ [ch]) := by
  have holds := Trie.ofWords_holds words
  rcases mem_append.mp member with root | below
  · obtain ⟨unmarked, more, same⟩ := mem_nodePiece.mp root
    have goesOn := holds.begins_snoc []
    rw [same]
    exact ⟨isPiece_of_node unmarked more holds.isWord goesOn,
      fun ch => Children.keys_iff.trans (goesOn ch)⟩
  · obtain ⟨path, below, node, more, same⟩ := Children.mem_collect.mp below
    obtain ⟨isWord, goesOn⟩ := holds.node node
    rw [same]
    exact ⟨isPiece_of_node rfl more isWord goesOn, fun ch => Children.keys_iff.trans (goesOn ch)⟩

theorem exists_collectPrefixAndNext {words : List (List Nat)} {path : List Nat}
    (isPiece : IsPiece words path) :
    ∃ piece ∈ (Trie.ofWords words).collectPrefixAndNext, piece.pre = path := by
  have holds := Trie.ofWords_holds words
  obtain ⟨notWord, ch, begins⟩ := isPiece
  by_cases atRoot : path = []
  · subst atRoot
    have more : (Trie.ofWords words).children ≠ .nil :=
      Children.ne_nil_iff.mpr ⟨ch, (holds.begins_snoc [] ch).mpr begins⟩
    have unmarked : (Trie.ofWords words).isWord = false := by
      rw [← Bool.not_eq_true, holds.isWord]
      exact notWord
    exact ⟨_, mem_append_left _ (mem_nodePiece.mpr ⟨unmarked, more, rfl⟩), rfl⟩
  · have isPath := (holds.hasPath path).mpr ⟨atRoot, begins.of_isPrefix (prefix_append ..)⟩
    obtain ⟨mark, below, node⟩ := Children.exists_hasNode isPath
    obtain ⟨isWord, goesOn⟩ := holds.node node
    have unmarked : mark = false := by
      rw [← Bool.not_eq_true, isWord]
      exact notWord
    subst unmarked
    have more : below ≠ .nil := Children.ne_nil_iff.mpr ⟨ch, (goesOn ch).mpr begins⟩
    exact ⟨_, mem_append_right _ (Children.mem_collect.mpr ⟨path, below, node, more, rfl⟩), rfl⟩

end LlamaCpp.Peg
