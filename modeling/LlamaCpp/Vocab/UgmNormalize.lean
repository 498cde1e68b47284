import LlamaCpp.Vocab.Ugm
import Mathlib.Data.List.MinMax

/-!
# Normalizing a prefix

A key matches in the charsmap when it is a path of the array that ends at a leaf.  The
user-defined tokens are looked for by how far the input follows any of them.  So the charsmap
is left out where the input only begins like a token, and too much is left as it is where it
follows a longer token beyond a complete one.
-/

set_option autoImplicit false

namespace LlamaCpp.Vocab

open LlamaCpp.Lib List

section

variable (charsmap : Charsmap)

inductive XcdaPath : Bytes → UInt32 → Prop
  | root {node : UInt32} (found : xcdaNode charsmap 0 = .ok node) : XcdaPath [] (xcdaBase node)
  | step {key : Bytes} {index : UInt32} {c : UInt8} {node : UInt32} (before : XcdaPath key index)
      (nonzero : c ≠ 0) (found : xcdaNode charsmap (index ^^^ c.toUInt32) = .ok node)
      (child : xcdaLcheck node = c.toUInt32) :
      XcdaPath (key ++ [c]) (index ^^^ c.toUInt32 ^^^ xcdaBase node)

structure XcdaLeaf (index : UInt32) (c : UInt8) (value : UInt32) : Prop where
  nonzero : c ≠ 0
  leads : ∃ node leaf, xcdaNode charsmap (index ^^^ c.toUInt32) = .ok node ∧
    xcdaLcheck node = c.toUInt32 ∧ xcdaLeaf node = true ∧
      xcdaNode charsmap (index ^^^ c.toUInt32 ^^^ xcdaBase node) = .ok leaf ∧ value = xcdaValue leaf

def XcdaMatch (key : Bytes) (value : UInt32) : Prop :=
  ∃ front index c, key = front ++ [c] ∧ XcdaPath charsmap front index ∧ XcdaLeaf charsmap index c value

structure LongestMatch (rest key : Bytes) (value : UInt32) : Prop where
  isMatch : XcdaMatch charsmap key value
  begins : key <+: rest
  longest : ∀ other replacement, XcdaMatch charsmap other replacement → other <+: rest →
    other.length ≤ key.length

def LeavesArray (rest : Bytes) : Prop :=
  ∃ front index c, front ++ [c] <+: rest ∧ XcdaPath charsmap front index ∧ c ≠ 0 ∧
    match xcdaNode charsmap (index ^^^ c.toUInt32) with
    | .error _ => True
    | .ok node => xcdaLcheck node = c.toUInt32 ∧ xcdaLeaf node = true ∧
        ∀ leaf, xcdaNode charsmap (index ^^^ c.toUInt32 ^^^ xcdaBase node) ≠ .ok leaf

/-- The longest match is replaced; without one a code point stays; a charsmap that leads out
of its array is an error. -/
structure ReplacesLongest (rest : Bytes) (result : Except String NormalizationResult) : Prop where
  replaced : ∀ key value, LongestMatch charsmap rest key value → ¬ LeavesArray charsmap rest →
    result = replacementAt charsmap value key.length
  kept : (∀ key value, XcdaMatch charsmap key value → ¬ key <+: rest) →
    ¬ LeavesArray charsmap rest → result = .ok (keptCodePoint rest)
  outside : LeavesArray charsmap rest → ∃ message, result = .error message

/-- A user-defined token that the input begins with is kept whole, the longest of them; any
other input goes through the charsmap. -/
structure NormalizesRight (vocab : UgmVocab) (rest : Bytes) : Prop where
  userDefined : ∀ token ∈ vocab.idToToken, token.userDefined = true → token.text <+: rest →
    (∀ other ∈ vocab.idToToken, other.userDefined = true → other.text <+: rest →
      other.text.length ≤ token.text.length) →
    normalizePrefix vocab charsmap rest = .ok ⟨token.text, token.text.length⟩
  charsmap : (∀ token ∈ vocab.idToToken, token.userDefined = true → ¬ token.text <+: rest) →
    userDefinedTokenMatch vocab rest = 0 ∧
      ReplacesLongest charsmap rest (normalizePrefix vocab charsmap rest)

end

/-- What the input shares with a user-defined token is no longer than a complete one that it
begins with. -/
def EndsAtToken (vocab : UgmVocab) (rest : Bytes) : Prop :=
  ∀ key, key ≠ [] → key <+: rest →
    (∃ token ∈ vocab.idToToken, token.userDefined = true ∧ key <+: token.text) →
    ∃ token ∈ vocab.idToToken, token.userDefined = true ∧ token.text <+: rest ∧
      key.length ≤ token.text.length

section

variable {charsmap : Charsmap} {rest : Bytes}

variable {key : Bytes} {index : UInt32} {front : Bytes} {c : UInt8} {best : Nat × UInt32}

theorem XcdaPath.unique {other : Bytes} {otherIndex : UInt32} (path : XcdaPath charsmap key index)
    (otherPath : XcdaPath charsmap other otherIndex) (same : key = other) : index = otherIndex := by
  induction path generalizing other otherIndex with
  | root found =>
    cases otherPath with
    | root otherFound =>
      rw [found, Except.ok.injEq] at otherFound
      rw [otherFound]
    | step before nonzero otherFound child => simp at same
  | @step front index c node before nonzero found child ih =>
    cases otherPath with
    | root otherFound => simp at same
    | @step otherFront earlier d otherNode otherBefore _ otherFound _ =>
      obtain ⟨fronts, lasts⟩ := append_inj' same rfl
      rw [List.cons.injEq] at lasts
      have indices := ih otherBefore fronts
      rw [← indices, ← lasts.1, found, Except.ok.injEq] at otherFound
      rw [← indices, ← lasts.1, otherFound]

theorem XcdaPath.step_at (path : XcdaPath charsmap key index) (begins : front ++ [c] <+: key) :
    ∃ earlier node, XcdaPath charsmap front earlier ∧ c ≠ 0 ∧
      xcdaNode charsmap (earlier ^^^ c.toUInt32) = .ok node ∧ xcdaLcheck node = c.toUInt32 := by
  induction path with
  | root found => simp at begins
  | @step whole earlier d node before nonzero found child ih =>
    rcases prefix_concat_iff.mp begins with same | shorter
    · obtain ⟨fronts, lasts⟩ := append_inj' same rfl
      rw [List.cons.injEq] at lasts
      rw [fronts, lasts.1]
      exact ⟨earlier, node, before, nonzero, found, child⟩
    · exact ih shorter

def Blocked (charsmap : Charsmap) (front : Bytes) (c : UInt8) : Prop :=
  ∀ index, XcdaPath charsmap front index →
    c = 0 ∨ ∃ node, xcdaNode charsmap (index ^^^ c.toUInt32) = .ok node ∧
      xcdaLcheck node ≠ c.toUInt32

theorem Blocked.no_path (blocked : Blocked charsmap front c) (path : XcdaPath charsmap key index) :
    ¬ front ++ [c] <+: key := by
  intro begins
  obtain ⟨earlier, node, before, nonzero, found, child⟩ := path.step_at begins
  rcases blocked earlier before with zero | ⟨other, otherFound, noChild⟩
  · exact nonzero zero
  · rw [found, Except.ok.injEq] at otherFound
    rw [← otherFound] at noChild
    exact noChild child

theorem prefix_cases {more : Bytes} {d : UInt8} (begins : key ++ [d] <+: front ++ c :: more) :
    key ++ [d] <+: front ∨ key = front ∧ d = c ∨ front ++ [c] <+: key := by
  have cut : front ++ [c] <+: front ++ c :: more := by
    rw [append_cons front c more]
    exact prefix_append _ _
  rcases lt_trichotomy key.length front.length with shorter | same | longer
  · left
    apply prefix_of_prefix_length_le begins (prefix_append _ _)
    rw [length_append]
    exact shorter
  · right
    left
    have whole : key ++ [d] = front ++ [c] := by
      apply (prefix_of_prefix_length_le begins cut ?_).eq_of_length
      · rw [length_append, length_append, same]
        rfl
      · rw [length_append, length_append, same]
        exact le_refl _
    obtain ⟨fronts, lasts⟩ := append_inj' whole rfl
    exact ⟨fronts, (List.cons.inj lasts).1⟩
  · right
    right
    apply prefix_of_prefix_length_le cut ((prefix_append _ _).trans begins)
    rw [length_append]
    exact longer

/-- What is known of the text in front of the walk: the best match in it, and that no step on
the way left the array. -/
structure WalkInv (charsmap : Charsmap) (front : Bytes) (best : Nat × UInt32) : Prop where
  inside : best.1 ≤ front.length
  isMatch : 0 < best.1 → XcdaMatch charsmap (front.take best.1) best.2
  longest : ∀ key value, XcdaMatch charsmap key value → key <+: front → key.length ≤ best.1
  stays : ¬ LeavesArray charsmap front

theorem WalkInv.blocked {more : Bytes} (inv : WalkInv charsmap front best)
    (blocked : Blocked charsmap front c) : WalkInv charsmap (front ++ c :: more) best where
  inside := inv.inside.trans (prefix_append front (c :: more)).length_le
  isMatch some_ := by
    rw [take_append_of_le_length inv.inside]
    exact inv.isMatch some_
  longest key value isMatch begins := by
    obtain ⟨keyFront, index, d, rfl, path, leaf⟩ := isMatch
    rcases prefix_cases begins with earlier | ⟨here, same⟩ | later
    · exact inv.longest _ value ⟨keyFront, index, d, rfl, path, leaf⟩ earlier
    · rw [here] at path
      rw [same] at leaf
      obtain ⟨node, -, found, child, -⟩ := leaf.leads
      rcases blocked index path with zero | ⟨other, otherFound, noChild⟩
      · exact absurd zero leaf.nonzero
      · rw [found, Except.ok.injEq] at otherFound
        exact absurd (otherFound ▸ child) noChild
    · exact absurd later (blocked.no_path path)
  stays := by
    rintro ⟨keyFront, index, d, begins, path, nonzero, leaves⟩
    rcases prefix_cases begins with earlier | ⟨here, same⟩ | later
    · exact inv.stays ⟨keyFront, index, d, earlier, path, nonzero, leaves⟩
    · rw [here] at path
      rw [same] at leaves nonzero
      rcases blocked index path with zero | ⟨node, found, noChild⟩
      · exact nonzero zero
      · rw [found] at leaves
        exact noChild leaves.1
    · exact blocked.no_path path later

theorem WalkInv.step {node : UInt32} (inv : WalkInv charsmap front best)
    (path : XcdaPath charsmap front index)
    (found : xcdaNode charsmap (index ^^^ c.toUInt32) = .ok node) (noLeaf : xcdaLeaf node = false) :
    WalkInv charsmap (front ++ [c]) best where
  inside := inv.inside.trans (prefix_append front [c]).length_le
  isMatch some_ := by
    rw [take_append_of_le_length inv.inside]
    exact inv.isMatch some_
  longest key value isMatch begins := by
    rcases prefix_concat_iff.mp begins with here | earlier
    · obtain ⟨keyFront, other, d, same, otherPath, leaf⟩ := isMatch
      obtain ⟨fronts, lasts⟩ := append_inj' (here.symm.trans same) rfl
      rw [List.cons.injEq] at lasts
      obtain ⟨otherNode, -, otherFound, -, isLeaf, -⟩ := leaf.leads
      rw [← path.unique otherPath fronts, ← lasts.1, found, Except.ok.injEq] at otherFound
      rw [← otherFound, noLeaf] at isLeaf
      cases isLeaf
    · exact inv.longest key value isMatch earlier
  stays := by
    rintro ⟨keyFront, other, d, begins, otherPath, nonzero, leaves⟩
    rcases prefix_concat_iff.mp begins with here | earlier
    · obtain ⟨fronts, lasts⟩ := append_inj' here rfl
      rw [List.cons.injEq] at lasts
      rw [lasts.1, ← path.unique otherPath fronts.symm, found] at leaves
      obtain ⟨-, isLeaf, -⟩ := leaves
      rw [noLeaf] at isLeaf
      cases isLeaf
    · exact inv.stays ⟨keyFront, other, d, earlier, otherPath, nonzero, leaves⟩

theorem WalkInv.leaf {node leaf : UInt32} (inv : WalkInv charsmap front best)
    (path : XcdaPath charsmap front index) (nonzero : c ≠ 0)
    (found : xcdaNode charsmap (index ^^^ c.toUInt32) = .ok node)
    (child : xcdaLcheck node = c.toUInt32) (isLeaf : xcdaLeaf node = true)
    (value : xcdaNode charsmap (index ^^^ c.toUInt32 ^^^ xcdaBase node) = .ok leaf) :
    WalkInv charsmap (front ++ [c]) (front.length + 1, xcdaValue leaf) where
  inside := by rw [length_append]; exact le_refl _
  isMatch _ := by
    rw [take_of_length_le (by simp)]
    exact ⟨front, index, c, rfl, path, nonzero, node, leaf, found, child, isLeaf, value, rfl⟩
  longest key _ _ begins := by
    have bound := begins.length_le
    rw [length_append] at bound
    exact bound
  stays := by
    rintro ⟨keyFront, other, d, begins, otherPath, otherNonzero, leaves⟩
    rcases prefix_concat_iff.mp begins with here | earlier
    · obtain ⟨fronts, lasts⟩ := append_inj' here rfl
      rw [List.cons.injEq] at lasts
      rw [lasts.1, ← path.unique otherPath fronts.symm, found] at leaves
      exact leaves.2.2 leaf value
    · exact inv.stays ⟨keyFront, other, d, earlier, otherPath, otherNonzero, leaves⟩

theorem xcdaWalk_spec (inv : WalkInv charsmap front best) (path : XcdaPath charsmap front index) :
    match xcdaWalk charsmap index front.length best rest with
    | .ok found => WalkInv charsmap (front ++ rest) found
    | .error _ => LeavesArray charsmap (front ++ rest) := by
  induction rest generalizing front best index with
  | nil =>
    rw [append_nil]
    exact inv
  | cons c rest ih =>
    have cut : front ++ [c] <+: front ++ c :: rest := by
      rw [append_cons front c rest]
      exact prefix_append _ _
    have onward : front ++ c :: rest = front ++ [c] ++ rest := append_cons front c rest
    have longer : (front ++ [c]).length = front.length + 1 := length_append
    rw [xcdaWalk]
    by_cases zero : c = 0
    · rw [if_pos zero]
      exact inv.blocked fun _ _ => Or.inl zero
    · simp only [if_neg zero, bind, Except.bind]
      cases found : xcdaNode charsmap (index ^^^ c.toUInt32) with
      | error message => exact ⟨front, index, c, cut, path, zero, by rw [found]; trivial⟩
      | ok node =>
        simp only
        by_cases child : xcdaLcheck node = c.toUInt32
        · rw [if_neg (not_not.mpr child)]
          have nextPath := XcdaPath.step path zero found child
          cases isLeaf : xcdaLeaf node with
          | false =>
            rw [onward, ← longer]
            exact ih (inv.step path found isLeaf) nextPath
          | true =>
            cases value : xcdaNode charsmap (index ^^^ c.toUInt32 ^^^ xcdaBase node) with
            | error message =>
              refine ⟨front, index, c, cut, path, zero, ?_⟩
              rw [found]
              refine ⟨child, isLeaf, fun leaf isValue => ?_⟩
              rw [value] at isValue
              cases isValue
            | ok leaf =>
              have matched := inv.leaf path zero found child isLeaf value
              rw [onward, ← longer]
              rw [← longer] at matched
              exact ih matched nextPath
        · rw [if_pos child]
          refine inv.blocked fun other otherPath => Or.inr ⟨node, ?_, child⟩
          rw [← path.unique otherPath rfl, found]

theorem longestPrefix_spec (charsmap : Charsmap) (rest : Bytes) :
    match longestPrefix charsmap rest with
    | .ok found => WalkInv charsmap rest found
    | .error _ => LeavesArray charsmap rest := by
  rw [longestPrefix]
  by_cases empty : charsmap.xcdaArray.length = 0
  · rw [if_pos empty]
    have noNode : ∀ index node, xcdaNode charsmap index ≠ .ok node := by
      intro index node
      rw [xcdaNode, eq_nil_of_length_eq_zero empty]
      exact fun found => by cases found
    have noPath : ∀ {key index}, ¬ XcdaPath charsmap key index := by
      rintro key index path
      cases path with
      | root found => exact noNode 0 _ found
      | step _ _ found _ => exact noNode _ _ found
    exact {
      inside := Nat.zero_le _
      isMatch := fun some_ => absurd some_ (Nat.lt_irrefl 0)
      longest := fun key value isMatch _ => by
        obtain ⟨_, _, _, _, path, _⟩ := isMatch
        exact absurd path noPath
      stays := fun leaves => by
        obtain ⟨_, _, _, _, path, _⟩ := leaves
        exact noPath path }
  · rw [if_neg empty]
    have rootFound : ∃ node, xcdaNode charsmap 0 = .ok node := by
      rw [xcdaNode]
      have first : charsmap.xcdaArray[(0 : UInt32).toNat]? = some charsmap.xcdaArray[0] :=
        List.getElem?_eq_getElem (Nat.pos_of_ne_zero empty)
      rw [first]
      exact ⟨_, rfl⟩
    obtain ⟨node, found⟩ := rootFound
    rw [found]
    have start : WalkInv charsmap [] (0, 0) := {
      inside := Nat.le_refl 0
      isMatch := fun some_ => absurd some_ (Nat.lt_irrefl 0)
      longest := fun key value _ begins => begins.length_le
      stays := fun leaves => by
        obtain ⟨front, _, c, begins, _⟩ := leaves
        simp at begins }
    exact xcdaWalk_spec start (.root found)

theorem XcdaMatch.unique {value other : UInt32} (isMatch : XcdaMatch charsmap key value)
    (otherMatch : XcdaMatch charsmap key other) : value = other := by
  obtain ⟨front, index, c, same, path, -, node, leaf, found, -, -, leads, rfl⟩ := isMatch
  obtain ⟨otherFront, otherIndex, d, otherSame, otherPath, -, otherNode, otherLeaf, otherFound, -, -,
    otherLeads, rfl⟩ := otherMatch
  obtain ⟨fronts, lasts⟩ := append_inj' (same.symm.trans otherSame) rfl
  rw [List.cons.injEq] at lasts
  rw [← path.unique otherPath fronts, ← lasts.1] at otherFound otherLeads
  rw [found, Except.ok.injEq] at otherFound
  rw [← otherFound, leads, Except.ok.injEq] at otherLeads
  rw [otherLeads]

theorem normalizeByCharsmap_replaces (charsmap : Charsmap) (rest : Bytes) :
    ReplacesLongest charsmap rest (normalizeByCharsmap charsmap rest) := by
  have spec := longestPrefix_spec charsmap rest
  cases found : longestPrefix charsmap rest with
  | error message =>
    rw [found] at spec
    have failed : normalizeByCharsmap charsmap rest = .error message := by
      rw [normalizeByCharsmap, found]
      rfl
    exact ⟨fun _ _ _ stays => absurd spec stays, fun _ stays => absurd spec stays,
      fun _ => ⟨message, failed⟩⟩
  | ok best =>
    rw [found] at spec
    have result : normalizeByCharsmap charsmap rest =
        if 0 < best.1 then replacementAt charsmap best.2 best.1 else .ok (keptCodePoint rest) := by
      rw [normalizeByCharsmap, found]
      rfl
    refine ⟨fun key value longest _ => ?_, fun noMatch _ => ?_, fun leaves => absurd leaves spec.stays⟩
    · have bound := spec.longest key value longest.isMatch longest.begins
      have some_ : 0 < best.1 := by
        obtain ⟨front, _, c, rfl, _⟩ := longest.isMatch
        rw [length_append] at bound
        exact lt_of_lt_of_le (Nat.succ_pos _) bound
      have isMatch := spec.isMatch some_
      have above := longest.longest _ best.2 isMatch ( take_prefix _ _)
      rw [length_take, min_eq_left spec.inside] at above
      have length : key.length = best.1 := le_antisymm bound above
      have same : key = rest.take best.1 := by
        rw [← length]
        exact prefix_iff_eq_take.mp longest.begins
      have replacement : value = best.2 := XcdaMatch.unique (same ▸ longest.isMatch) isMatch
      rw [result, if_pos some_, length, replacement]
    · rw [result, if_neg]
      intro some_
      exact noMatch _ best.2 (spec.isMatch some_) ( take_prefix _ _)

section

variable {vocab : UgmVocab}

theorem mem_userDefinedEntries (entry : Bytes × Nat) :
    entry ∈ userDefinedEntries vocab ↔
      ∃ token ∈ vocab.idToToken, token.userDefined = true ∧ (token.text, 0) = entry := by
  simp [userDefinedEntries, and_assoc]

/-- How far the input follows the user-defined tokens: beginnings of the input that a token
has too are the ones up to this length. -/
theorem le_userDefinedTokenMatch {key : Bytes} (nonempty : key ≠ []) (begins : key <+: rest) :
    key.length ≤ userDefinedTokenMatch vocab rest ↔
      ∃ token ∈ vocab.idToToken, token.userDefined = true ∧ key <+: token.text := by
  obtain ⟨reached, found, -, path⟩ :=
    NaiveTrie.getLongestPrefix_spec (userDefinedTokenMatcher vocab) rest 0
  have cut : rest.take key.length = key := (prefix_iff_eq_take.mp begins).symm
  rw [userDefinedTokenMatch, found, zero_add, ← path key.length begins.length_le, cut,
    userDefinedTokenMatcher, NaiveTrie.descend_ofEntries]
  simp only [nonempty, false_or, mem_userDefinedEntries]
  constructor
  · rintro ⟨entry, ⟨token, member, defined, rfl⟩, here⟩
    exact ⟨token, member, defined, here⟩
  · rintro ⟨token, member, defined, here⟩
    exact ⟨(token.text, 0), ⟨token, member, defined, rfl⟩, here⟩

theorem userDefinedTokenMatch_le (vocab : UgmVocab) (rest : Bytes) :
    userDefinedTokenMatch vocab rest ≤ rest.length := by
  obtain ⟨reached, found, inside, -⟩ :=
    NaiveTrie.getLongestPrefix_spec (userDefinedTokenMatcher vocab) rest 0
  rw [userDefinedTokenMatch, found, zero_add]
  exact inside

theorem exists_longest_token {token : UgmToken} (member : token ∈ vocab.idToToken)
    (defined : token.userDefined = true) (begins : token.text <+: rest) :
    ∃ longest ∈ vocab.idToToken, longest.userDefined = true ∧ longest.text <+: rest ∧
      ∀ other ∈ vocab.idToToken, other.userDefined = true → other.text <+: rest →
        other.text.length ≤ longest.text.length := by
  have inFilter : ∀ other, other ∈ vocab.idToToken.filter
      (fun token => token.userDefined && decide (token.text <+: rest)) ↔
        other ∈ vocab.idToToken ∧ other.userDefined = true ∧ other.text <+: rest := by
    intro other
    rw [mem_filter, Bool.and_eq_true, decide_eq_true_eq]
  cases most : List.argmax (fun token : UgmToken => token.text.length)
      (vocab.idToToken.filter fun token => token.userDefined && decide (token.text <+: rest)) with
  | none =>
    rw [argmax_eq_none] at most
    have here := (inFilter token).mpr ⟨member, defined, begins⟩
    rw [most] at here
    cases here
  | some longest =>
    obtain ⟨isToken, isDefined, isPrefix⟩ := (inFilter longest).mp (argmax_mem most)
    refine ⟨longest, isToken, isDefined, isPrefix, fun other otherMember otherDefined otherBegins => ?_⟩
    exact le_of_mem_argmax (f := fun token : UgmToken => token.text.length)
      ((inFilter other).mpr ⟨otherMember, otherDefined, otherBegins⟩) most

/-- A position is normalized right exactly when what the input there shares with a
user-defined token goes no further than a complete one. -/
theorem normalizesRight_iff (vocab : UgmVocab) (charsmap : Charsmap) (c : UInt8) (more : Bytes) :
    NormalizesRight charsmap vocab (c :: more) ↔ EndsAtToken vocab (c :: more) := by
  have nonempty := cons_ne_nil c more
  generalize c :: more = rest at nonempty
  have bypassed : 0 < userDefinedTokenMatch vocab rest → normalizePrefix vocab charsmap rest =
      .ok ⟨rest.take (userDefinedTokenMatch vocab rest), userDefinedTokenMatch vocab rest⟩ := by
    intro some_
    rw [normalizePrefix, if_neg nonempty, if_pos some_]
  constructor
  · intro right key keyNonempty begins shared
    have bound := (le_userDefinedTokenMatch keyNonempty begins).mpr shared
    have some_ := lt_of_lt_of_le (length_pos_iff.mpr keyNonempty) bound
    by_cases none : ∀ token ∈ vocab.idToToken, token.userDefined = true → ¬ token.text <+: rest
    · exact absurd (right.charsmap none).1 some_.ne'
    · push Not at none
      obtain ⟨token, member, defined, tokenBegins⟩ := none
      obtain ⟨longest, isToken, isDefined, isPrefix, most⟩ :=
        exists_longest_token member defined tokenBegins
      have result := right.userDefined longest isToken isDefined isPrefix most
      rw [bypassed some_, Except.ok.injEq, NormalizationResult.mk.injEq] at result
      exact ⟨longest, isToken, isDefined, isPrefix, result.2 ▸ bound⟩
  · intro ends
    have inside := userDefinedTokenMatch_le vocab rest
    have complete : 0 < userDefinedTokenMatch vocab rest →
        ∃ token ∈ vocab.idToToken, token.userDefined = true ∧ token.text <+: rest ∧
          userDefinedTokenMatch vocab rest ≤ token.text.length := by
      intro some_
      have length : (rest.take (userDefinedTokenMatch vocab rest)).length =
          userDefinedTokenMatch vocab rest := by
        rw [length_take, min_eq_left inside]
      have begins := take_prefix (userDefinedTokenMatch vocab rest) rest
      have some' : rest.take (userDefinedTokenMatch vocab rest) ≠ [] :=
        length_pos_iff.mp (length.symm ▸ some_)
      obtain ⟨token, member, defined, tokenBegins, bound⟩ := ends _ some' begins
        ((le_userDefinedTokenMatch some' begins).mp (le_of_eq length))
      exact ⟨token, member, defined, tokenBegins, length ▸ bound⟩
    refine ⟨fun token member defined begins most => ?_, fun none => ?_⟩
    · have texts := vocab.nonempty token member
      have reached := (le_userDefinedTokenMatch texts begins).mpr
        ⟨token, member, defined, prefix_rfl⟩
      have some_ := lt_of_lt_of_le (length_pos_iff.mpr texts) reached
      obtain ⟨other, otherMember, otherDefined, otherBegins, bound⟩ := complete some_
      have same : userDefinedTokenMatch vocab rest = token.text.length :=
        le_antisymm (bound.trans (most other otherMember otherDefined otherBegins)) reached
      rw [bypassed some_, same, ← prefix_iff_eq_take.mp begins]
    · have zero : userDefinedTokenMatch vocab rest = 0 := by
        by_contra some_
        obtain ⟨token, member, defined, begins, -⟩ := complete (Nat.pos_of_ne_zero some_)
        exact none token member defined begins
      refine ⟨zero, ?_⟩
      rw [normalizePrefix, if_neg nonempty, zero]
      exact normalizeByCharsmap_replaces charsmap rest

end

end

def greetingVocab : UgmVocab where
  idToToken := [{ text := [97, 98, 99], score := 0, userDefined := true }]
  tokenUnk := 0
  escapeWhitespaces := true
  addSpacePrefix := false
  removeExtraWhitespaces := false
  treatWhitespaceAsSuffix := false
  nonempty := by decide
  distinct := by decide

/-- The input `abd` shares two bytes with the token `abc`, and these are kept as they are. -/
theorem normalizesRight_fails :
    normalizePrefix greetingVocab ⟨[], []⟩ [97, 98, 100] = .ok ⟨[97, 98], 2⟩ ∧
      ¬ NormalizesRight ⟨[], []⟩ greetingVocab [97, 98, 100] := by
  refine ⟨by decide, fun right => ?_⟩
  have free : ∀ token ∈ greetingVocab.idToToken, token.userDefined = true →
      ¬ token.text <+: [97, 98, 100] := by decide
  exact absurd (right.charsmap free).1 (by decide)

end LlamaCpp.Vocab
